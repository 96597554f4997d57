import Tally.Proofs.Machine.Following
import Tally.Proofs.Program.Places

namespace Tally

open Machine (on Follows)

section

variable {p : Program} {addr : Label → Nat} {c : Code} {capacity bound : Nat}

def ShowsAt (p : Program) (addr : Label → Nat) (pc : Nat) (vs : List Value) (v : Datum)
    (m : Machine Memory) : Prop :=
  ∃ w host, v.Shows p addr w ∧ m = on pc (w :: vs) host

def ShowsAllAt (p : Program) (addr : Label → Nat) (pc : Nat) (vs : List Value) (count : Nat)
    (values : List Datum) (m : Machine Memory) : Prop :=
  ∃ ws host, (List.Forall₂ (Datum.Shows p addr) values ws ∧ ws.length = count) ∧
    m = on pc (ws ++ vs) host

def CallsFollow (p : Program) (addr : Label → Nat) (c : Code) (capacity bound : Nat)
    (call : Datum → List Datum → Evaluation Datum) : Prop :=
  ∀ ⦃f : Datum⦄ ⦃values : List Datum⦄ ⦃w : Value⦄ ⦃ws : List Value⦄ ⦃n pc : Nat⦄ (vs : List Value)
    (host : Memory), f.Shows p addr w → List.Forall₂ (Datum.Shows p addr) values ws →
      ws.length = n → c.HasInstr pc (.call n) →
        Follows (.inMemory c capacity) bound (on pc (w :: (ws ++ vs)) host) (call f values)
          (ShowsAt p addr (pc + Opcode.call.size) vs)

variable {pc : Nat} {vs : List Value} {host : Memory}

theorem Binding.next {frame temps : List Value} {b : Binding} {w : Value} (host : Memory)
    (gives : b.Gives c addr frame w) (here : c.HasInstr pc ((b.instr temps.length).map addr)) :
    (Machine.next (.inMemory c capacity) (on pc (temps ++ frame) host)).Pushes (.inMemory c capacity)
      pc (pc + (b.instr temps.length).size) w (temps ++ frame) host := by
  cases b with
  | function l =>
    cases gives
    exact Machine.next_pushFunc _ host here
  | native i name =>
    obtain ⟨n, bound, rfl⟩ := gives
    exact Machine.next_pushNative _ host here bound
  | argument i =>
    have there : (temps ++ frame)[temps.length + i + 1]? = some w := by
      rw [Nat.add_assoc, List.getElem?_append_right (Nat.le_add_right _ _), Nat.add_sub_cancel_left]
      exact gives
    exact Machine.next_peek _ host here there

theorem Datum.follows_add {a b : Datum} {left right : Value} (shows : a.Shows p addr left)
    (shows' : b.Shows p addr right) (here : c.HasInstr pc .add) :
    Follows (.inMemory c capacity) bound (on pc (right :: left :: vs) host) (a.add b)
      (ShowsAt p addr (pc + Opcode.add.size) vs) := by
  by_cases numbers : left.kind = .int ∧ right.kind = .int
  · cases shows with
    | int x =>
      cases shows' with
      | int y =>
        exact .pushed (Machine.next_add_int vs host here) List.prefix_rfl rfl
          ⟨_, host, .int (x + y), rfl⟩
      | function _ | native _ => cases numbers.2
    | function _ | native _ => cases numbers.1
  · have halted : Machine.next (.inMemory c capacity) (on pc (right :: left :: vs) host) = _ :=
      Machine.next_add_other vs host here numbers
    rw [shows.kind, shows'.kind] at halted
    have refused : a.add b = throw (.fault (.operands a.kind b.kind)) := by
      rw [shows.kind, shows'.kind] at numbers
      cases a with
      | int x =>
        cases b with
        | int y => exact absurd ⟨rfl, rfl⟩ numbers
        | function _ | native _ => rfl
      | function _ | native _ => rfl
    rw [refused]
    exact .fault halted rfl

variable {call : Datum → List Datum → Evaluation Datum} {here : Place}

mutual

/-- The machine follows an expression above `depth` temporaries. -/
theorem Expr.follows (calls : CallsFollow p addr c capacity bound call)
    (sound : here.Sound p addr c) :
    ∀ (e : Expr) {depth pc : Nat} (temps : List Value) (host : Memory), temps.length = depth →
      e.violations here.around = [] → c.Holds addr pc (e.code here.scope depth) →
        Follows (.inMemory c capacity) bound (on pc (temps ++ here.frame) host)
          (e.evaluate call here.env)
          (ShowsAt p addr (pc + sizeOfLines (e.code here.scope depth)) (temps ++ here.frame))
  | .int digits _, depth, pc, temps, host, _, _, holds => by
    rw [Expr.evaluate]
    rw [Expr.code] at holds ⊢
    exact .pushed (Machine.next_pushInt _ host holds.1) List.prefix_rfl rfl
      ⟨_, host, .int _, rfl⟩
  | .ident name, depth, pc, temps, host, count, kept, holds => by
    obtain ⟨b, bound⟩ := exists_binding_of_kept sound.covers kept
    obtain ⟨v, w, found, shows, gives⟩ := sound.shown name.text b bound
    rw [Expr.evaluate, found]
    rw [Expr.code, bound] at holds ⊢
    subst count
    exact .pushed (b.next host gives holds.1) List.prefix_rfl rfl ⟨w, host, shows, rfl⟩
  | .add left _ right, depth, pc, temps, host, count, kept, holds => by
    rw [Expr.violations, List.append_eq_nil_iff] at kept
    rw [Expr.evaluate]
    rw [Expr.code] at holds ⊢
    have last := holds.right.1
    rw [sizeOfLines_append, ← Nat.add_assoc] at last
    rw [sizeOfLines_append, sizeOfLines_append, ← Nat.add_assoc, ← Nat.add_assoc]
    refine (left.follows calls sound temps host count kept.1 holds.left.left).bind ?_
    intro a m first
    obtain ⟨w, host₁, shows, rfl⟩ := first
    have count' : (w :: temps).length = depth + 1 := congrArg (· + 1) count
    refine (right.follows calls sound (w :: temps) host₁ count' kept.2 holds.left.right).bind ?_
    intro b m second
    obtain ⟨w', host₂, shows', rfl⟩ := second
    exact Datum.follows_add shows shows' last
  | .call callee _ args, depth, pc, temps, host, count, kept, holds => by
    rw [Expr.violations, List.append_eq_nil_iff, List.append_eq_nil_iff] at kept
    rw [Expr.evaluate]
    rw [Expr.code] at holds ⊢
    have last := holds.right.1
    rw [sizeOfLines_append, ← Nat.add_assoc] at last
    rw [sizeOfLines_append, sizeOfLines_append, ← Nat.add_assoc, ← Nat.add_assoc]
    refine (Expr.followsAll calls sound args temps host count kept.1.2 holds.left.left).bind ?_
    intro values m first
    obtain ⟨ws, host₁, ⟨shows, length⟩, rfl⟩ := first
    have count' : (ws ++ temps).length = depth + args.length := by
      rw [List.length_append, count, length, Nat.add_comm]
    rw [← List.append_assoc]
    refine (callee.follows calls sound (ws ++ temps) host₁ count' kept.1.1 holds.left.right).bind ?_
    intro f m second
    obtain ⟨w, host₂, shows', rfl⟩ := second
    rw [List.append_assoc]
    exact calls _ host₂ shows' shows length last

theorem Expr.followsAll (calls : CallsFollow p addr c capacity bound call)
    (sound : here.Sound p addr c) :
    ∀ (es : List Expr) {depth pc : Nat} (temps : List Value) (host : Memory), temps.length = depth →
      Expr.violationsOfAll here.around es = [] → c.Holds addr pc (Expr.codeArgs here.scope depth es) →
        Follows (.inMemory c capacity) bound (on pc (temps ++ here.frame) host)
          (Expr.evaluateAll call here.env es)
          (ShowsAllAt p addr (pc + sizeOfLines (Expr.codeArgs here.scope depth es))
            (temps ++ here.frame) es.length)
  | [], depth, pc, temps, host, _, _, _ => by
    rw [Expr.evaluateAll]
    exact .pure ⟨[], host, ⟨.nil, rfl⟩, rfl⟩
  | e :: es, depth, pc, temps, host, count, kept, holds => by
    rw [Expr.violationsOfAll, List.append_eq_nil_iff] at kept
    rw [Expr.evaluateAll]
    rw [Expr.codeArgs] at holds ⊢
    rw [sizeOfLines_append, ← Nat.add_assoc]
    refine (Expr.followsAll calls sound es temps host count kept.2 holds.left).bind ?_
    intro values m first
    obtain ⟨ws, host₁, ⟨shows, length⟩, rfl⟩ := first
    have count' : (ws ++ temps).length = depth + es.length := by
      rw [List.length_append, count, length, Nat.add_comm]
    rw [← List.append_assoc]
    refine (e.follows calls sound (ws ++ temps) host₁ count' kept.1 holds.right).bind ?_
    intro v m second
    obtain ⟨w, host₂, shows', rfl⟩ := second
    refine .pure ⟨w :: ws, host₂, ⟨.cons shows' shows, congrArg (· + 1) length⟩, ?_⟩
    rw [List.append_assoc, List.cons_append]

end

end

end Tally
