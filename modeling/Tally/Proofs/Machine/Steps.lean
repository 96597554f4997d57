import Tally.Channel
import Tally.Proofs.Code.Decoding
import Tally.Proofs.Machine.Decode

namespace Tally

namespace Stack

def ofList (vs : List Value) : Stack := ⟨vs, vs.length, rfl⟩

theorem push_ofList (vs : List Value) (v : Value) : (ofList vs).push v = ofList (v :: vs) := by
  ext1
  rfl

theorem drop_ofList (vs : List Value) (n : Nat) : (ofList vs).drop n = ofList (vs.drop n) := by
  ext1
  rfl

end Stack

namespace Machine

variable {σ : Type}

def on (pc : Nat) (vs : List Value) (host : σ) : Machine σ := ⟨pc, .ofList vs, host⟩

theorem eq_on {m : Machine σ} {pc : Nat} {vs : List Value} (place : m.pc = pc)
    (stack : m.stack.toList = vs) : m = on pc vs m.host := by
  subst place stack
  have same : m.stack = .ofList m.stack.toList := Stack.ext rfl
  unfold on
  rw [← same]

def next (setup : Setup σ) (m : Machine σ) : Step σ :=
  match setup.code.fetch m.pc with
  | .error f => .halt (.fault f m.pc) m
  | .ok op => m.step setup op

theorem next_of_fetch {setup : Setup σ} {m : Machine σ} {op : Opcode}
    (fetched : setup.code.fetch m.pc = .ok op) : next setup m = m.step setup op := by
  unfold next
  rw [fetched]

theorem next_of_fetch_error {setup : Setup σ} {m : Machine σ} {f : Fault}
    (fetched : setup.code.fetch m.pc = .error f) : next setup m = .halt (.fault f m.pc) m := by
  unfold next
  rw [fetched]

/-- A step that pushes a value last, if there is room; it starts at `origin` and leads to `pc`. -/
def Step.Pushes (setup : Setup σ) (origin pc : Nat) (v : Value) (vs : List Value) (host : σ)
    (s : Step σ) : Prop :=
  (vs.length < setup.capacity ∧ s = .next (on pc (v :: vs) host)) ∨
    (setup.capacity ≤ vs.length ∧ ∃ m, s = .halt (.fault .stackOverflow origin) m ∧ m.host = host)

end Machine

namespace Exec

variable {σ : Type} (pc : Nat) (vs : List Value) (host : σ)

open Machine (on)

theorem push_on_of_lt {capacity : Nat} (room : vs.length < capacity) (v : Value) :
    push capacity v (on pc vs host) = .ok () (on pc (v :: vs) host) := by
  have height : (Stack.ofList vs).height < capacity := room
  change (if _ then _ else _) = _
  rw [if_pos height, Stack.push_ofList]
  rfl

theorem push_on_of_le {capacity : Nat} (full : capacity ≤ vs.length) (v : Value) :
    push capacity v (on pc vs host) = .error (.fault .stackOverflow none) (on pc vs host) := by
  have height : ¬ (Stack.ofList vs).height < capacity := Nat.not_lt.mpr full
  change (if _ then _ else _) = _
  rw [if_neg height]
  rfl

theorem pop_on (v : Value) : pop (on pc (v :: vs) host) = .ok v (on pc vs host) := rfl

theorem popInt_on_other {v : Value} (other : v.kind ≠ .int) :
    popInt (on pc (v :: vs) host) = .error (.fault (.expectedInt v.kind) none) (on pc vs host) := by
  cases v with
  | int z => exact absurd rfl other
  | native _ | address _ => rfl

theorem peek_on {depth : Nat} {v : Value} (here : vs[depth]? = some v) :
    peek depth (on pc vs host) = .ok v (on pc vs host) := by
  have seen : (on pc vs host).stack.peek? depth = some v := here
  have got : (get : Exec σ (Machine σ)) (on pc vs host) = .ok (on pc vs host) (on pc vs host) := rfl
  unfold peek
  rw [bind_of_ok got, seen]
  rfl

theorem requireHeight_on {n : Nat} (enough : n ≤ vs.length) :
    requireHeight n (on pc vs host) = .ok () (on pc vs host) := by
  have height : ¬ (Stack.ofList vs).height < n := Nat.not_lt.mpr enough
  change (if (Stack.ofList vs).height < n then fault .stackUnderflow else pure () : Exec σ Unit)
    (on pc vs host) = _
  rw [if_neg height]
  rfl

theorem drop_on {n : Nat} (enough : n ≤ vs.length) :
    drop n (on pc vs host) = .ok () (on pc (vs.drop n) host) := by
  unfold drop
  rw [bind_of_ok (requireHeight_on pc vs host enough)]
  change EStateM.Result.ok () (⟨pc, (Stack.ofList vs).drop n, host⟩ : Machine σ) = _
  rw [Stack.drop_ofList]
  rfl

theorem jump_on (target : Nat) :
    jump (target : Number) (on pc vs host) = .ok () (on target vs host) := by
  unfold jump
  rw [Number.toNat?_natCast]
  rfl

theorem advance_on (target : Nat) :
    advance target (on pc vs host) = .ok () (on target vs host) := rfl

end Exec

theorem Code.HasInstr.fetch {c : Code} {pc : Nat} {i : Instr Nat} (here : c.HasInstr pc i) :
    c.fetch pc = .ok i.opcode := by
  rw [Code.fetch_of_byte here.opcode, Opcode.ofCode?_code, Option.elim_some]

namespace Machine

variable {σ : Type} {setup : Setup σ} {pc : Nat} (vs : List Value) (host : σ)

def Step.ofResult (length pc : Nat) : EStateM.Result Trap (Machine σ) Unit → Step σ
  | .ok () m => .next m
  | .error t m => .halt (t.halt length pc) m

theorem step_eq (setup : Setup σ) (op : Opcode) (m : Machine σ) :
    m.step setup op =
      if op = .stop then .halt .stopped m
      else .ofResult setup.code.length m.pc (setup.execute m.pc op m) := by
  unfold step
  by_cases stops : op = .stop
  · rw [if_pos stops, if_pos stops]
  · rw [if_neg stops, if_neg stops]
    cases setup.execute m.pc op m <;> rfl

theorem next_eq {i : Instr Nat} (here : setup.code.HasInstr pc i) (goes : i ≠ .stop) :
    next setup (on pc vs host) =
      .ofResult setup.code.length pc (setup.perform i (on (pc + i.size) vs host)) := by
  have different : i.opcode ≠ .stop := by
    intro same
    cases i <;> cases same
    exact goes rfl
  have executed : setup.execute pc i.opcode (on pc vs host) =
      setup.perform i (on (pc + i.size) vs host) := by
    unfold Setup.execute
    rw [bind_of_ok (Exec.advance_on pc vs host _)]
    exact bind_of_ok (Setup.decode_of_ok _ host here.operands)
  have fetched : setup.code.fetch (on pc vs host).pc = .ok i.opcode := here.fetch
  rw [next_of_fetch fetched, step_eq, if_neg different]
  exact congrArg (Step.ofResult setup.code.length pc) executed

theorem next_stop (here : setup.code.HasInstr pc .stop) :
    next setup (on pc vs host) = .halt .stopped (on pc vs host) := by
  have fetched : setup.code.fetch (on pc vs host).pc = .ok .stop := here.fetch
  rw [next_of_fetch fetched]
  rfl

theorem ofResult_push (origin target : Nat) (v : Value) :
    (Step.ofResult setup.code.length origin (setup.push v (on target vs host))).Pushes setup origin
      target v vs host := by
  unfold Setup.push
  rcases Nat.lt_or_ge vs.length setup.capacity with room | full
  · rw [Exec.push_on_of_lt target vs host room]
    exact Or.inl ⟨room, rfl⟩
  · rw [Exec.push_on_of_le target vs host full]
    exact Or.inr ⟨full, _, rfl, rfl⟩

theorem next_pushInt {z : Int} (here : setup.code.HasInstr pc (.pushInt z)) :
    (next setup (on pc vs host)).Pushes setup pc (pc + Opcode.pushInt.size) (.ofInt z) vs host := by
  rw [next_eq vs host here nofun]
  exact ofResult_push vs host pc _ _

theorem next_pushFunc {target : Nat} (here : setup.code.HasInstr pc (.pushFunc target)) :
    (next setup (on pc vs host)).Pushes setup pc (pc + Opcode.pushFunc.size) (.address target)
      vs host := by
  rw [next_eq vs host here nofun]
  exact ofResult_push vs host pc _ _

theorem next_pushNative {index : Nat} {n : Native}
    (here : setup.code.HasInstr pc (.pushNative index))
    (bound : setup.code.natives[index]? = some n) :
    (next setup (on pc vs host)).Pushes setup pc (pc + Opcode.pushNative.size) (.native n)
      vs host := by
  rw [next_eq vs host here nofun]
  unfold Setup.perform
  simp only [bound]
  exact ofResult_push vs host pc _ _

theorem next_peek {depth : Nat} {v : Value} (here : setup.code.HasInstr pc (.peek depth))
    (there : vs[depth]? = some v) :
    (next setup (on pc vs host)).Pushes setup pc (pc + Opcode.peek.size) v vs host := by
  rw [next_eq vs host here nofun]
  unfold Setup.perform
  dsimp only
  rw [bind_of_ok (Exec.peek_on _ vs host there)]
  exact ofResult_push vs host pc _ _

theorem next_pop {v : Value} (here : setup.code.HasInstr pc .pop) :
    next setup (on pc (v :: vs) host) = .next (on (pc + Opcode.pop.size) vs host) := by
  rw [next_eq (v :: vs) host here nofun]
  rfl

theorem next_add_int {a b : Int64} (here : setup.code.HasInstr pc .add) :
    (next setup (on pc (.int b :: .int a :: vs) host)).Pushes setup pc (pc + Opcode.add.size)
      (.int (a + b)) vs host := by
  rw [next_eq _ host here nofun]
  exact ofResult_push vs host pc _ _

theorem next_add_other {left right : Value} (here : setup.code.HasInstr pc .add)
    (other : ¬ (left.kind = .int ∧ right.kind = .int)) :
    next setup (on pc (right :: left :: vs) host) =
      .halt (.fault (.operands left.kind right.kind) pc) (on (pc + Opcode.add.size) vs host) := by
  rw [next_eq _ host here nofun]
  cases left with
  | int a =>
    cases right with
    | int b => exact absurd ⟨rfl, rfl⟩ other
    | native _ | address _ => rfl
  | native _ | address _ => rfl

theorem next_jump {target : Nat} (here : setup.code.HasInstr pc (.jump target)) :
    next setup (on pc vs host) = .next (on target vs host) := by
  rw [next_eq vs host here nofun]
  rfl

theorem next_jumpFalse {target : Nat} {v : Value} (here : setup.code.HasInstr pc (.jumpFalse target)) :
    next setup (on pc (v :: vs) host) =
      .next (on (if v.truthy then pc + Opcode.jumpFalse.size else target) vs host) := by
  rw [next_eq (v :: vs) host here nofun]
  unfold Setup.perform
  dsimp only
  rw [bind_of_ok (Exec.pop_on _ vs host v)]
  cases v.truthy <;> rfl

theorem next_call_int {z : Int64} {args : Nat} (here : setup.code.HasInstr pc (.call args)) :
    next setup (on pc (.int z :: vs) host) =
      .halt (.fault (.notCallable .int) pc) (on (pc + Opcode.call.size) vs host) := by
  rw [next_eq (.int z :: vs) host here nofun]
  rfl

theorem next_call_function {entry args : Nat} {f : EntryPoint}
    (here : setup.code.HasInstr pc (.call args))
    (found : setup.code.functionAt? (entry : Number) = some f) (arity : f.arity = args)
    (enough : args ≤ vs.length) :
    (next setup (on pc (.address entry :: vs) host)).Pushes setup pc entry
      (.address (pc + Opcode.call.size : Nat)) vs host := by
  have called : setup.perform (.call args) (on (pc + Opcode.call.size) (.address entry :: vs) host) =
      (Exec.push setup.capacity (.address (pc + Opcode.call.size : Nat)) >>= fun _ =>
        Exec.jump entry) (on (pc + Opcode.call.size) vs host) := by
    have agree : ¬ f.arity ≠ args := not_not_intro arity
    change setup.callFunction entry args (on (pc + Opcode.call.size) vs host) = _
    unfold Setup.callFunction
    simp only [found]
    rw [if_neg agree, bind_of_ok (Exec.requireHeight_on _ vs host enough)]
    rfl
  rw [next_eq (.address entry :: vs) host here nofun]
  change (Step.ofResult _ _ (setup.perform (.call args)
    (on (pc + Opcode.call.size) (.address entry :: vs) host))).Pushes _ _ _ _ _ _
  rw [called]
  rcases Nat.lt_or_ge vs.length setup.capacity with room | full
  · rw [bind_of_ok (Exec.push_on_of_lt _ vs host room _), Exec.jump_on]
    exact Or.inl ⟨room, rfl⟩
  · rw [bind_of_error (Exec.push_on_of_le _ vs host full _)]
    exact Or.inr ⟨full, _, rfl, rfl⟩

theorem next_call_function_arity {entry args : Nat} {f : EntryPoint}
    (here : setup.code.HasInstr pc (.call args))
    (found : setup.code.functionAt? (entry : Number) = some f) (arity : f.arity ≠ args) :
    next setup (on pc (.address entry :: vs) host) =
      .halt (.fault (.functionArity f.name f.arity args) pc) (on (pc + Opcode.call.size) vs host) := by
  have called : setup.perform (.call args) (on (pc + Opcode.call.size) (.address entry :: vs) host) =
      .error (.fault (.functionArity f.name f.arity args) none)
        (on (pc + Opcode.call.size) vs host) := by
    change setup.callFunction entry args (on (pc + Opcode.call.size) vs host) = _
    unfold Setup.callFunction
    simp only [found]
    rw [if_pos arity]
    rfl
  rw [next_eq (.address entry :: vs) host here nofun]
  change Step.ofResult _ _ (setup.perform (.call args)
    (on (pc + Opcode.call.size) (.address entry :: vs) host)) = _
  rw [called]
  rfl

theorem next_call_native_arity {n : Native} {args : Nat}
    (here : setup.code.HasInstr pc (.call args)) (arity : n.arity ≠ args) :
    next setup (on pc (.native n :: vs) host) =
      .halt (.fault (.nativeArity n.name n.arity args) pc) (on (pc + Opcode.call.size) vs host) := by
  have called : setup.perform (.call args) (on (pc + Opcode.call.size) (.native n :: vs) host) =
      .error (.fault (.nativeArity n.name n.arity args) none)
        (on (pc + Opcode.call.size) vs host) := by
    change setup.callNative n args (on (pc + Opcode.call.size) vs host) = _
    unfold Setup.callNative
    rw [if_pos arity]
    rfl
  rw [next_eq (.native n :: vs) host here nofun]
  change Step.ofResult _ _ (setup.perform (.call args)
    (on (pc + Opcode.call.size) (.native n :: vs) host)) = _
  rw [called]
  rfl

theorem next_ret {back args : Nat} {v : Value} (here : setup.code.HasInstr pc (.ret 0 args))
    (enough : args ≤ vs.length) :
    (next setup (on pc (v :: .address back :: vs) host)).Pushes setup pc back v
      (vs.drop args) host := by
  have returned : setup.perform (.ret 0 args)
      (on (pc + Opcode.ret.size) (v :: .address back :: vs) host) =
        (Exec.push setup.capacity v >>= fun _ => Exec.jump back)
          (on (pc + Opcode.ret.size) (vs.drop args) host) := by
    unfold Setup.perform Setup.ret
    dsimp only
    rw [bind_of_ok (Exec.pop_on _ _ host v), bind_of_ok (Exec.drop_on _ _ host (Nat.zero_le _)),
      List.drop_zero, bind_of_ok (Exec.pop_on _ vs host _)]
    dsimp only
    rw [bind_of_ok (Exec.drop_on _ vs host enough)]
    rfl
  rw [next_eq _ host here nofun]
  change (Step.ofResult _ _ (setup.perform (.ret 0 args)
    (on (pc + Opcode.ret.size) (v :: .address back :: vs) host))).Pushes _ _ _ _ _ _
  rw [returned]
  rcases Nat.lt_or_ge (vs.drop args).length setup.capacity with room | full
  · rw [bind_of_ok (Exec.push_on_of_lt _ _ host room _), Exec.jump_on]
    exact Or.inl ⟨room, rfl⟩
  · rw [bind_of_error (Exec.push_on_of_le _ _ host full _)]
    exact Or.inr ⟨full, _, rfl, rfl⟩

end Machine

namespace Setup

open Machine (on)

variable {σ : Type} {setup : Setup σ} {n : Native} {args : Nat}

def atWork (setup : Setup σ) (n : Native) : Exec σ Unit :=
  match setup.registry n.primitive with
  | .ok (some routine) => routine.exec setup.capacity
  | _ => throw (.foreign s!"no primitive '{n.primitive}'")

theorem callNative_eq_atWork (setup : Setup σ) (n : Native) (args : Nat) :
    setup.callNative n args =
      if n.arity ≠ args then Exec.fault (.nativeArity n.name n.arity args)
      else Exec.requireHeight args >>= fun _ => Exec.height >>= fun before =>
        setup.atWork n >>= fun _ => Exec.height >>= fun after =>
          if after ≠ before - args + 1 then Exec.fault (.unbalancedNative n.name args)
          else pure () := by
  unfold callNative atWork
  by_cases same : n.arity = args
  · simp only [if_neg (not_not_intro same)]
    cases setup.registry n.primitive with
    | error message => rfl
    | ok found => cases found <;> rfl
  · simp only [if_pos same]
    rfl

theorem atWork_of_asked {routine : Routine σ}
    (asked : setup.registry n.primitive = .ok (some routine)) :
    setup.atWork n = routine.exec setup.capacity := by
  unfold atWork
  rw [asked]

theorem atWork_cases (setup : Setup σ) (n : Native) :
    (∃ routine, setup.registry n.primitive = .ok (some routine) ∧
      setup.atWork n = routine.exec setup.capacity) ∨
    ∃ message, setup.atWork n = throw (.foreign message) := by
  unfold atWork
  cases setup.registry n.primitive with
  | error _ => exact Or.inr ⟨_, rfl⟩
  | ok found =>
    cases found with
    | none => exact Or.inr ⟨_, rfl⟩
    | some routine => exact Or.inl ⟨routine, rfl, rfl⟩

theorem callNative_eq {routine : Routine σ} (arity : n.arity = args)
    (asked : setup.registry n.primitive = .ok (some routine)) (pc : Nat) {vs : List Value} (host : σ)
    (enough : args ≤ vs.length) :
    setup.callNative n args (on pc vs host) =
      (routine.exec setup.capacity >>= fun _ => Exec.height >>= fun after =>
        if after ≠ vs.length - args + 1 then Exec.fault (.unbalancedNative n.name args)
        else pure ()) (on pc vs host) := by
  rw [callNative_eq_atWork, if_neg (not_not_intro arity), atWork_of_asked asked,
    bind_of_ok (Exec.requireHeight_on pc vs host enough)]
  rfl

end Setup

namespace Machine

variable {σ : Type} {setup : Setup σ} {pc : Nat}

theorem next_call_native {n : Native} {args : Nat} {routine : Routine σ} {v : Value}
    {vs rest : List Value} {host host' : σ} (here : setup.code.HasInstr pc (.call args))
    (arity : n.arity = args) (asked : setup.registry n.primitive = .ok (some routine))
    (taken : vs.length = rest.length + args)
    (executed : routine.exec setup.capacity (on (pc + Opcode.call.size) vs host) =
      Exec.push setup.capacity v (on (pc + Opcode.call.size) rest host')) :
    (next setup (on pc (.native n :: vs) host)).Pushes setup pc (pc + Opcode.call.size) v
      rest host' := by
  have called : setup.perform (.call args) (on (pc + Opcode.call.size) (.native n :: vs) host) =
      setup.callNative n args (on (pc + Opcode.call.size) vs host) := rfl
  rw [next_eq (.native n :: vs) host here nofun]
  change (Step.ofResult _ _ (setup.perform (.call args)
    (on (pc + Opcode.call.size) (.native n :: vs) host))).Pushes _ _ _ _ _ _
  rw [called, Setup.callNative_eq arity asked _ host (by omega)]
  rcases Nat.lt_or_ge rest.length setup.capacity with room | full
  · rw [Exec.push_on_of_lt _ rest host' room] at executed
    have balanced : ¬ (v :: rest).length ≠ vs.length - args + 1 := by
      rw [List.length_cons]
      omega
    have height : Exec.height (on (pc + Opcode.call.size) (v :: rest) host') =
        .ok (v :: rest).length (on (pc + Opcode.call.size) (v :: rest) host') := rfl
    rw [bind_of_ok executed, bind_of_ok height, if_neg balanced]
    exact Or.inl ⟨room, rfl⟩
  · rw [Exec.push_on_of_le _ rest host' full] at executed
    rw [bind_of_error executed]
    exact Or.inr ⟨full, _, rfl, rfl⟩

theorem next_call_native_error {n : Native} {args : Nat} {routine : Routine σ} {t : Trap}
    {vs : List Value} {host : σ} {m : Machine σ} (here : setup.code.HasInstr pc (.call args))
    (arity : n.arity = args) (asked : setup.registry n.primitive = .ok (some routine))
    (enough : args ≤ vs.length)
    (executed : routine.exec setup.capacity (on (pc + Opcode.call.size) vs host) = .error t m) :
    next setup (on pc (.native n :: vs) host) = .halt (t.halt setup.code.length pc) m := by
  have called : setup.perform (.call args) (on (pc + Opcode.call.size) (.native n :: vs) host) =
      setup.callNative n args (on (pc + Opcode.call.size) vs host) := rfl
  rw [next_eq (.native n :: vs) host here nofun]
  change Step.ofResult _ _ (setup.perform (.call args)
    (on (pc + Opcode.call.size) (.native n :: vs) host)) = _
  rw [called, Setup.callNative_eq arity asked _ host enough, bind_of_error executed]
  rfl

end Machine

def Setup.inMemory (code : Code) (capacity : Nat) : Setup Memory :=
  ⟨code, .builtins Memory.channel, capacity⟩

namespace Machine

variable {code : Code} {capacity pc : Nat} (vs : List Value) (host : Memory)

theorem asked_print {n : Native} (primitive : n.primitive = "print_int") :
    (Setup.inMemory code capacity).registry n.primitive =
      .ok (some (printInt Memory.channel)) := by
  rw [primitive]
  rfl

theorem asked_read {n : Native} (primitive : n.primitive = "read_int") :
    (Setup.inMemory code capacity).registry n.primitive =
      .ok (some (readInt Memory.channel)) := by
  rw [primitive]
  rfl

theorem asked_other {n : Native} (print : n.primitive ≠ "print_int")
    (read : n.primitive ≠ "read_int") :
    (Setup.inMemory code capacity).registry n.primitive = .ok none := by
  change (if _ then _ else if _ then _ else _) = _
  rw [if_neg read, if_neg print]
  rfl

theorem bind_pure_unit {ε τ : Type} (x : EStateM ε τ Unit) : (x >>= fun _ => pure ()) = x := by
  funext s
  change EStateM.bind x (fun _ => pure ()) s = x s
  unfold EStateM.bind
  cases x s <;> rfl

theorem next_call_print {n : Native} {z : Int64} (here : code.HasInstr pc (.call 1))
    (arity : n.arity = (1 : Nat)) (primitive : n.primitive = "print_int") :
    (next (.inMemory code capacity) (on pc (.native n :: .int z :: vs) host)).Pushes
      (.inMemory code capacity) pc (pc + Opcode.call.size) (.int z) vs (host.write z.toInt) := by
  have executed : (printInt Memory.channel).exec capacity
      (on (pc + Opcode.call.size) (.int z :: vs) host) =
        (Exec.push capacity (.int z) >>= fun _ => pure ())
          (on (pc + Opcode.call.size) vs (host.write z.toInt)) := rfl
  rw [bind_pure_unit] at executed
  exact next_call_native here arity (asked_print primitive)
    rfl executed

theorem next_call_print_other {n : Native} {v : Value} (here : code.HasInstr pc (.call 1))
    (arity : n.arity = (1 : Nat)) (primitive : n.primitive = "print_int") (other : v.kind ≠ .int) :
    next (.inMemory code capacity) (on pc (.native n :: v :: vs) host) =
      .halt (.fault (.expectedInt v.kind) pc) (on (pc + Opcode.call.size) vs host) := by
  have executed : (printInt Memory.channel).exec capacity
      (on (pc + Opcode.call.size) (v :: vs) host) =
        .error (.fault (.expectedInt v.kind) none) (on (pc + Opcode.call.size) vs host) :=
    bind_of_error (Exec.popInt_on_other _ vs host other)
  exact next_call_native_error here arity (asked_print primitive)
    (Nat.le_add_left 1 _) executed

theorem next_call_read {n : Native} (here : code.HasInstr pc (.call 0))
    (arity : n.arity = (0 : Nat)) (primitive : n.primitive = "read_int") :
    (next (.inMemory code capacity) (on pc (.native n :: vs) host)).Pushes
      (.inMemory code capacity) pc (pc + Opcode.call.size) (.ofInt host.read.1) vs
        host.read.2 := by
  have executed : (readInt Memory.channel).exec capacity (on (pc + Opcode.call.size) vs host) =
      (Exec.push capacity (.ofInt host.read.1) >>= fun _ => pure ())
        (on (pc + Opcode.call.size) vs host.read.2) := rfl
  rw [bind_pure_unit] at executed
  exact next_call_native here arity (asked_read primitive)
    rfl executed

end Machine

end Tally
