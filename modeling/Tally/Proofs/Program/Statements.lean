import Tally.Proofs.Program.Expressions

namespace Tally

open Machine (on Follows)

/-- Where a statement leaves the machine; one that ends with a `return` does not come to the end
of its code. -/
def Place.Left (p : Program) (addr : Label → Nat) (here : Place) (pc : Nat) (ends : Bool) :
    Option Datum → Machine Memory → Prop
  | none, m => ends = false ∧ ∃ host, m = on pc here.frame host
  | some v, m => ∃ back rest, here.exit? = some (back, rest) ∧ ShowsAt p addr back rest v m

theorem Stmt.lastEndsWithReturn_cons {s : Stmt} {ss : List Stmt} (first : s.endsWithReturn = false)
    (rest : Stmt.lastEndsWithReturn ss = false) : Stmt.lastEndsWithReturn (s :: ss) = false := by
  cases ss with
  | nil => exact first
  | cons s' ss => exact rest

section

variable {p : Program} {addr : Label → Nat} {c : Code} {capacity bound : Nat}

theorem Code.Holds.loop {scope : Scope} {labels pc : Nat} {word : Position} {condition : Expr}
    {body : Stmt} (holds : c.Holds addr pc ((Stmt.loop word condition body).code scope labels)) :
    c.Holds addr pc (condition.code scope 0) ∧
      c.HasInstr (pc + sizeOfLines (condition.code scope 0))
        (.jumpFalse (pc + sizeOfLines ((Stmt.loop word condition body).code scope labels))) ∧
      c.Holds addr (pc + sizeOfLines (condition.code scope 0) + Opcode.jumpFalse.size)
        (body.code scope (labels + 2)) ∧
      c.HasInstr (pc + sizeOfLines (condition.code scope 0) + Opcode.jumpFalse.size +
        sizeOfLines (body.code scope (labels + 2))) (.jump pc) := by
  have jumpFalse : sizeOfLines [.instr (.jumpFalse (labels + 1))] = Opcode.jumpFalse.size := rfl
  have nothing : sizeOfLines [.label labels] = 0 := rfl
  rw [Stmt.code] at holds ⊢
  have entry : addr labels = pc := holds.left.left.left.left.1
  have leave := holds.right.2.1
  have tests := holds.left.left.right.1
  have held := holds.left.right
  have repeats := holds.right.1
  rw [Instr.map, leave] at tests
  rw [Instr.map, entry] at repeats
  simp only [sizeOfLines_append, jumpFalse, nothing, Nat.zero_add, ← Nat.add_assoc] at tests held repeats ⊢
  exact ⟨holds.left.left.left.right, tests, held, repeats⟩

theorem follows_rounds {here : Place} {condition : Evaluation Datum}
    {body : Evaluation (Option Datum)} {entry test again leave : Nat} {ends : Bool}
    (conditionFollows : ∀ host, Follows (.inMemory c capacity) bound (on entry here.frame host) condition
      (ShowsAt p addr test here.frame))
    (tests : c.HasInstr test (.jumpFalse leave))
    (bodyFollows : ∀ host, Follows (.inMemory c capacity) bound
      (on (test + Opcode.jumpFalse.size) here.frame host) body (here.Left p addr again ends))
    (repeats : c.HasInstr again (.jump entry)) (n : Nat) (small : n ≤ bound) (host : Memory) :
    Follows (.inMemory c capacity) n (on entry here.frame host) (rounds condition body n)
      (here.Left p addr leave false) := by
  induction n generalizing host with
  | zero =>
    rw [rounds]
    exact .unfinished
  | succ n ih =>
    have fewer : n ≤ bound := Nat.le_of_succ_le small
    rw [rounds]
    refine ((conditionFollows host).mono small).bind ?_
    intro v m first
    obtain ⟨w, host₁, shows, rfl⟩ := first
    have tested : Machine.next (.inMemory c capacity) (on test (w :: here.frame) host₁) = _ :=
      Machine.next_jumpFalse here.frame host₁ tests
    rw [shows.truthy] at tested
    cases truth : v.truthy with
    | true =>
      rw [truth] at tested
      refine .step tested rfl (((bodyFollows host₁).mono fewer).bind ?_)
      intro result m second
      cases result with
      | some v => exact .pure second
      | none =>
        obtain ⟨_, host₂, rfl⟩ := second
        have back : Machine.next (.inMemory c capacity) (on again here.frame host₂) = _ :=
          Machine.next_jump here.frame host₂ repeats
        exact (Follows.step back rfl (ih fewer host₂)).mono (Nat.le_succ n)
    | false =>
      rw [truth] at tested
      exact .step tested rfl (.pure ⟨rfl, host₁, rfl⟩)

variable {call : Datum → List Datum → Evaluation Datum}

mutual

theorem Stmt.follows (calls : CallsFollow p addr c capacity bound call) :
    ∀ (s : Stmt) {here : Place} {labels pc : Nat} (host : Memory), here.Sound p addr c →
      s.violations here.around = [] → c.Holds addr pc (s.code here.scope labels) →
        Follows (.inMemory c capacity) bound (on pc here.frame host) (s.evaluate call bound here.env)
          (here.Left p addr (pc + sizeOfLines (s.code here.scope labels)) s.endsWithReturn)
  | .block _ body, here, labels, pc, host, sound, kept, holds => by
    rw [Stmt.violations] at kept
    rw [Stmt.code] at holds ⊢
    rw [Stmt.evaluate, Stmt.endsWithReturn]
    exact Stmt.followsAll calls body host sound.enterBlock kept holds
  | .loop _ condition body, here, labels, pc, host, sound, kept, holds => by
    rw [Stmt.violations, List.append_eq_nil_iff] at kept
    rw [Stmt.evaluate]
    obtain ⟨valued, tests, held, repeats⟩ := holds.loop
    have conditionFollows := fun host =>
      condition.follows calls sound [] host rfl kept.1 valued
    have bodyFollows := fun host => body.follows calls host sound kept.2 held
    exact follows_rounds conditionFollows tests bodyFollows repeats bound (Nat.le_refl bound) host
  | .ret _ value, here, labels, pc, host, sound, kept, holds => by
    rw [Stmt.violations, List.append_eq_nil_iff] at kept
    have inside : here.around.inFunction = true := by
      by_cases inside : here.around.inFunction = true
      · exact inside
      · rw [if_neg inside] at kept
        cases kept.1
    obtain ⟨back, args, rest, exit, frame, arity⟩ := sound.leave inside
    rw [Stmt.code] at holds ⊢
    rw [Stmt.evaluate, map_eq_pure_bind]
    have leaves := holds.right.1
    have valued := value.follows calls sound [] host rfl kept.2 holds.left
    refine valued.bind ?_
    intro v m first
    obtain ⟨w, host₁, shows, rfl⟩ := first
    rw [List.nil_append, frame]
    have enough : here.scope.paramCount ≤ (args ++ rest).length := by
      rw [← arity, List.length_append]
      exact Nat.le_add_right _ _
    have returned : (Machine.next (.inMemory c capacity)
        (on _ (w :: .address back :: (args ++ rest)) host₁)).Pushes _ _ _ _ _ _ :=
      Machine.next_ret (args ++ rest) host₁ leaves enough
    rw [← arity, List.drop_left] at returned
    exact .pushed returned List.prefix_rfl rfl ⟨back, rest, exit, w, host₁, shows, rfl⟩
  | .eval e, here, labels, pc, host, sound, kept, holds => by
    rw [Stmt.violations] at kept
    rw [Stmt.code] at holds ⊢
    rw [Stmt.evaluate, sizeOfLines_append, ← Nat.add_assoc]
    have valued := e.follows calls sound [] host rfl kept holds.left
    refine valued.bind ?_
    intro v m first
    obtain ⟨w, host₁, shows, rfl⟩ := first
    have popped : Machine.next (.inMemory c capacity) (on _ (w :: here.frame) host₁) = _ :=
      Machine.next_pop here.frame host₁ holds.right.1
    exact (Follows.step popped rfl (.pure ⟨rfl, host₁, rfl⟩)).mono (Nat.le_succ bound)

theorem Stmt.followsAll (calls : CallsFollow p addr c capacity bound call) :
    ∀ (ss : List Stmt) {here : Place} {labels pc : Nat} (host : Memory), here.Sound p addr c →
      Stmt.violationsOfAll here.around ss = [] → c.Holds addr pc (Stmt.codeAll here.scope labels ss) →
        Follows (.inMemory c capacity) bound (on pc here.frame host)
          (Stmt.evaluateAll call bound here.env ss)
          (here.Left p addr (pc + sizeOfLines (Stmt.codeAll here.scope labels ss))
            (Stmt.lastEndsWithReturn ss))
  | [], here, labels, pc, host, _, _, _ => by
    rw [Stmt.evaluateAll]
    exact .pure ⟨rfl, host, rfl⟩
  | s :: ss, here, labels, pc, host, sound, kept, holds => by
    rw [Stmt.violationsOfAll, List.append_eq_nil_iff] at kept
    rw [Stmt.codeAll] at holds ⊢
    rw [Stmt.evaluateAll, sizeOfLines_append, ← Nat.add_assoc]
    refine (s.follows calls host sound kept.1 holds.left).bind ?_
    intro result m first
    cases result with
    | some v => exact .pure first
    | none =>
      obtain ⟨goesOn, host₁, rfl⟩ := first
      refine (Stmt.followsAll calls ss host₁ sound kept.2 holds.right).imp ?_
      intro result m second
      cases result with
      | some v => exact second
      | none => exact ⟨Stmt.lastEndsWithReturn_cons goesOn second.1, second.2⟩

end

end

end Tally
