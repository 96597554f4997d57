import Tally.Proofs.Machine.Runs

namespace Tally

variable {σ α β : Type}

def Machine.Holds (value : Value → Prop) (m : Machine σ) : Prop := ∀ v ∈ m.stack.toList, value v

namespace Exec

/-- Work that keeps a property of the values, gives such results and is broken off in such ways
only. -/
def Keeps (value : Value → Prop) (trap : Trap → Prop) (act : Exec σ α) (post : α → Prop) : Prop :=
  ∀ m, m.Holds value →
    match act m with
    | .ok a m' => m'.Holds value ∧ post a
    | .error t _ => trap t

variable {value : Value → Prop} {trap : Trap → Prop} {act : Exec σ α} {post : α → Prop}
  {m m' : Machine σ}

theorem Keeps.of_ok {a : α} (keeps : act.Keeps value trap post) (holds : m.Holds value)
    (done : act m = .ok a m') : m'.Holds value ∧ post a := by
  have kept := keeps m holds
  rw [done] at kept
  exact kept

theorem Keeps.of_error {t : Trap} (keeps : act.Keeps value trap post) (holds : m.Holds value)
    (failed : act m = .error t m') : trap t := by
  have kept := keeps m holds
  rw [failed] at kept
  exact kept

theorem Keeps.of_error_anywhere {t : Trap} (keeps : act.Keeps (fun _ => True) trap post)
    (failed : act m = .error t m') : trap t := keeps.of_error (fun _ _ => trivial) failed

theorem Keeps.bind {f : α → Exec σ β} {last : β → Prop} (first : act.Keeps value trap post)
    (rest : ∀ a, post a → (f a).Keeps value trap last) : (act >>= f).Keeps value trap last := by
  intro m holds
  cases done : act m with
  | ok a m' =>
    obtain ⟨kept, given⟩ := first.of_ok holds done
    rw [bind_of_ok done]
    exact rest a given m' kept
  | error t m' =>
    rw [bind_of_error done]
    exact first.of_error holds done

theorem keeps_pure {a : α} (given : post a) : (pure a : Exec σ α).Keeps value trap post :=
  fun _ holds => ⟨holds, given⟩

theorem keeps_get : (get : Exec σ (Machine σ)).Keeps value trap fun _ => True :=
  fun _ holds => ⟨holds, trivial⟩

theorem keeps_throw {t : Trap} (raised : trap t) : (throw t : Exec σ α).Keeps value trap post :=
  fun _ _ => raised

theorem keeps_fault {f : Fault} (raised : trap (.fault f none)) :
    (fault f : Exec σ α).Keeps value trap post := keeps_throw raised

theorem keeps_height : (height : Exec σ Nat).Keeps value trap fun _ => True :=
  fun _ holds => ⟨holds, trivial⟩

theorem keeps_push {capacity : Nat} {v : Value} (given : value v)
    (overflow : trap (.fault .stackOverflow none)) :
    (push capacity v : Exec σ Unit).Keeps value trap fun _ => True := by
  rintro ⟨pc, stack, host⟩ holds
  rw [push]
  by_cases room : stack.height < capacity
  · rw [if_pos room]
    exact ⟨List.forall_mem_cons.mpr ⟨given, holds⟩, trivial⟩
  · rw [if_neg room]
    exact overflow

theorem keeps_pop (underflow : trap (.fault .stackUnderflow none)) :
    (pop : Exec σ Value).Keeps value trap value := by
  intro m holds
  match values : m.stack.toList with
  | [] =>
    rw [Machine.eq_on rfl values]
    exact underflow
  | v :: rest =>
    unfold Machine.Holds at holds
    rw [values] at holds
    obtain ⟨top, below⟩ := List.forall_mem_cons.mp holds
    rw [Machine.eq_on rfl values, pop_on]
    exact ⟨below, top⟩

theorem keeps_popInt (underflow : trap (.fault .stackUnderflow none))
    (other : ∀ k, trap (.fault (.expectedInt k) none)) :
    (popInt : Exec σ Int64).Keeps value trap fun _ => True := by
  refine (keeps_pop underflow).bind fun v _ => ?_
  cases v with
  | int z => exact keeps_pure trivial
  | native _ | address _ => exact keeps_fault (other _)

theorem keeps_peek {depth : Nat} (underflow : trap (.fault .stackUnderflow none)) :
    (peek depth : Exec σ Value).Keeps value trap value := by
  intro m holds
  have got : (get : Exec σ (Machine σ)) m = .ok m m := rfl
  unfold peek
  rw [bind_of_ok got]
  cases there : m.stack.peek? depth with
  | none => exact underflow
  | some v => exact ⟨holds, holds v (List.mem_of_getElem? there)⟩

theorem keeps_requireHeight {n : Nat} (underflow : trap (.fault .stackUnderflow none)) :
    (requireHeight n : Exec σ Unit).Keeps value trap fun _ => True := by
  refine keeps_height.bind fun height _ => ?_
  by_cases low : height < n
  · rw [if_pos low]
    exact keeps_fault underflow
  · rw [if_neg low]
    exact keeps_pure trivial

theorem keeps_drop {n : Nat} (underflow : trap (.fault .stackUnderflow none)) :
    (drop n : Exec σ Unit).Keeps value trap fun _ => True :=
  (keeps_requireHeight underflow).bind fun _ _ _ holds =>
    ⟨fun v member => holds v (List.mem_of_mem_drop member), trivial⟩

theorem keeps_advance (pc : Nat) : (advance pc : Exec σ Unit).Keeps value trap fun _ => True :=
  fun _ holds => ⟨holds, trivial⟩

theorem keeps_jump {target : Number} (astray : target.toNat? = none → trap (.astray target)) :
    (jump target : Exec σ Unit).Keeps value trap fun _ => True := by
  unfold jump
  cases natural : target.toNat? with
  | some pc => exact keeps_advance pc
  | none => exact keeps_throw (astray natural)

theorem keeps_askHost {act : σ → Except String Int × σ}
    (foreign : ∀ s message, (act s).1 = .error message → trap (.foreign message)) :
    (askHost act).Keeps value trap fun _ => True := by
  rintro ⟨pc, stack, host⟩ holds
  unfold askHost
  match asked : act host with
  | (.ok z, host') =>
    simp only [asked]
    exact ⟨holds, trivial⟩
  | (.error message, host') =>
    simp only [asked]
    exact foreign host message (congrArg Prod.fst asked)

end Exec

def Opcode.raises (op : Opcode) : Fault → Bool
  | .stackOverflow => op ∈ [.pushFunc, .pushNative, .pushInt, .peek, .add, .call, .ret]
  | .stackUnderflow => op ∈ [.peek, .pop, .add, .call, .ret, .jumpFalse]
  | .operands .. => op = .add
  | .nativeIndex _ => op = .pushNative
  | .notAReturnAddress _ => op = .ret
  | .notCallable _ | .functionArity .. | .nativeArity .. | .notAnEntry _
  | .unbalancedNative .. => op = .call
  | .expectedInt _ | .outsideCode _ | .unknownOpcode _ | .truncated .. | .raised _ => false

/-- What has to be allowed for an instruction to be performed, calls of natives apart. -/
structure Setup.Allows (setup : Setup σ) (value : Value → Prop) (trap : Trap → Prop)
    (i : Instr Nat) : Prop where
  int : ∀ z, value (.int z)
  address : ∀ n : Nat, value (.address n)
  native : ∀ n ∈ setup.code.natives, value (.native n)
  fault : ∀ f, i.opcode.raises f → trap (.fault f none)
  astray : ∀ a, value (.address a) → a.toNat? = none → trap (.astray a)

namespace Setup

open Exec

variable {setup : Setup σ} {value : Value → Prop} {trap : Trap → Prop} {i : Instr Nat} {args : Nat}

theorem keeps_callFunction (allows : setup.Allows value trap (.call args)) {a : Number}
    (given : value (.address a)) :
    (setup.callFunction a args).Keeps value trap fun _ => True := by
  unfold callFunction
  cases setup.code.functionAt? a with
  | none => exact keeps_fault (allows.fault _ rfl)
  | some f =>
    by_cases same : f.arity = args
    · simp only [if_neg (not_not_intro same)]
      exact (keeps_requireHeight (allows.fault _ rfl)).bind fun _ _ => keeps_get.bind fun m _ =>
        (keeps_push (allows.address m.pc) (allows.fault _ rfl)).bind fun _ _ =>
          keeps_jump (allows.astray a given)
    · simp only [if_pos same]
      exact keeps_fault (allows.fault _ rfl)

theorem keeps_callNative (allows : setup.Allows value trap (.call args)) {n : Native}
    (works : (setup.atWork n).Keeps value trap fun _ => True) :
    (setup.callNative n args).Keeps value trap fun _ => True := by
  rw [callNative_eq_atWork]
  by_cases same : n.arity = args
  · rw [if_neg (not_not_intro same)]
    refine (keeps_requireHeight (allows.fault _ rfl)).bind fun _ _ => keeps_height.bind
      fun before _ => works.bind fun _ _ => keeps_height.bind fun after _ => ?_
    by_cases balanced : after = before - args + 1
    · rw [if_neg (not_not_intro balanced)]
      exact keeps_pure trivial
    · rw [if_pos balanced]
      exact keeps_fault (allows.fault _ rfl)
  · rw [if_pos same]
    exact keeps_fault (allows.fault _ rfl)

theorem keeps_call (allows : setup.Allows value trap (.call args))
    (works : ∀ n, value (.native n) → (setup.atWork n).Keeps value trap fun _ => True) :
    (setup.call args).Keeps value trap fun _ => True := by
  refine (keeps_pop (allows.fault _ rfl)).bind fun v given => ?_
  cases v with
  | native n => exact keeps_callNative allows (works n given)
  | address a => exact keeps_callFunction allows given
  | int z => exact keeps_fault (allows.fault _ rfl)

theorem keeps_ret {depth : Nat} (allows : setup.Allows value trap (.ret depth args)) :
    (setup.ret depth args).Keeps value trap fun _ => True := by
  have underflow := allows.fault .stackUnderflow rfl
  refine (keeps_pop underflow).bind fun result given => (keeps_drop underflow).bind fun _ _ =>
    (keeps_pop underflow).bind fun back target => ?_
  cases back with
  | address a =>
    exact (keeps_drop underflow).bind fun _ _ =>
      (keeps_push given (allows.fault _ rfl)).bind fun _ _ => keeps_jump (allows.astray a target)
  | native _ | int _ => exact keeps_fault (allows.fault _ rfl)

theorem keeps_add (allows : setup.Allows value trap .add) :
    setup.add.Keeps value trap fun _ => True := by
  refine (keeps_pop (allows.fault _ rfl)).bind fun right _ =>
    (keeps_pop (allows.fault _ rfl)).bind fun left _ => ?_
  cases left with
  | int a =>
    cases right with
    | int b => exact keeps_push (allows.int _) (allows.fault _ rfl)
    | native _ | address _ => exact keeps_fault (allows.fault _ rfl)
  | native _ | address _ => exact keeps_fault (allows.fault _ rfl)

/-- An instruction keeps to what is allowed it, if the natives do that it can call. -/
theorem keeps_perform (allows : setup.Allows value trap i)
    (works : ∀ args, i = .call args → ∀ n, value (.native n) →
      (setup.atWork n).Keeps value trap fun _ => True) :
    (setup.perform i).Keeps value trap fun _ => True := by
  cases i with
  | pushFunc target => exact keeps_push (allows.address target) (allows.fault _ rfl)
  | pushNative index =>
    unfold perform
    dsimp only
    cases found : setup.code.natives[index]? with
    | some n =>
      exact keeps_push (allows.native n (Array.mem_of_getElem? found)) (allows.fault _ rfl)
    | none => exact keeps_fault (allows.fault _ rfl)
  | pushInt z => exact keeps_push (allows.int _) (allows.fault _ rfl)
  | peek depth =>
    exact (keeps_peek (allows.fault _ rfl)).bind fun v given =>
      keeps_push given (allows.fault _ rfl)
  | pop => exact (keeps_pop (allows.fault _ rfl)).bind fun _ _ => keeps_pure trivial
  | add => exact keeps_add allows
  | call args => exact keeps_call allows (works args rfl)
  | ret depth args => exact keeps_ret allows
  | jumpFalse target =>
    refine (keeps_pop (allows.fault _ rfl)).bind fun v _ => ?_
    cases v.truthy with
    | true => exact keeps_pure trivial
    | false => exact keeps_advance target
  | jump target => exact keeps_advance target
  | stop => exact keeps_pure trivial

end Setup

end Tally
