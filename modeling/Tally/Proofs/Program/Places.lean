import Tally.Proofs.Program.Compiled
import Tally.Value
import Mathlib.Data.List.Forall2

namespace Tally

inductive Datum.Shows (p : Program) (addr : Label → Nat) : Datum → Value → Prop where
  | int (z : Int64) : Shows p addr (.int z) (.int z)
  | function {l : Label} {f : Definition} (here : p.definitions[l]? = some f) :
    Shows p addr (.function f) (.address (addr l))
  | native {q : Prototype} (member : q ∈ p.prototypes) :
    Shows p addr (.native q) (.native q.native)

/-- The value that a binding gives where `frame` lies below the temporaries. -/
def Binding.Gives (c : Code) (addr : Label → Nat) (frame : List Value) : Binding → Value → Prop
  | .function l, w => w = .address (addr l)
  | .native i _, w => ∃ n, c.natives[i]? = some n ∧ w = .native n
  | .argument i, w => frame[i + 1]? = some w

/-- Where something is evaluated; a function has a place to return to, and a stack below it. -/
structure Place where
  around : Surroundings
  scope : Scope
  env : Environment
  frame : List Value
  exit? : Option (Nat × List Value)

structure Place.Sound (p : Program) (addr : Label → Nat) (c : Code) (here : Place) : Prop where
  covers : here.around.Covers here.scope
  shown : ∀ name b, here.scope.resolve name = .ok b → ∃ v w,
    here.env.find name = pure v ∧ v.Shows p addr w ∧ b.Gives c addr here.frame w
  leave : here.around.inFunction = true → ∃ (back : Nat) (args rest : List Value),
    here.exit? = some (back, rest) ∧ here.frame = .address back :: (args ++ rest) ∧
      args.length = here.scope.paramCount

def Place.enterBlock (here : Place) : Place := { here with scope := here.scope.enterBlock }

def Program.place (p : Program) (d : Declarations) : Place where
  around := ⟨Globals.declareAll [] p.items, [], false⟩
  scope := d.scope
  env := ⟨p.declared?, []⟩
  frame := []
  exit? := none

def Definition.place (f : Definition) (p : Program) (d : Declarations) (values : List Datum)
    (back : Nat) (args rest : List Value) : Place where
  around := ⟨Globals.declareAll [] p.items, f.header.paramNames, true⟩
  scope := d.scope.enterFunction f.header.paramNames
  env := ⟨p.declared?, f.header.paramNames.zip values⟩
  frame := .address back :: (args ++ rest)
  exit? := some (back, rest)

section

variable {p : Program} {addr : Label → Nat} {c : Code}

theorem Datum.Shows.kind {v : Datum} {w : Value} (shows : v.Shows p addr w) : w.kind = v.kind := by
  cases shows <;> rfl

theorem Datum.Shows.truthy {v : Datum} {w : Value} (shows : v.Shows p addr w) :
    w.truthy = v.truthy := by
  cases shows <;> rfl

theorem exists_shown {vs : List Datum} {ws : List Value}
    (shows : List.Forall₂ (Datum.Shows p addr) vs ws) {i : Nat} {v : Datum}
    (here : vs[i]? = some v) : ∃ w, ws[i]? = some w ∧ v.Shows p addr w := by
  induction shows generalizing i with
  | nil => cases here
  | cons first _ ih =>
    cases i with
    | zero =>
      cases here
      exact ⟨_, rfl, first⟩
    | succ i => exact ih here

theorem lookup_zip {ps : List String} {vs : List Datum} (nodup : ps.Nodup)
    (same : ps.length = vs.length) (name : String) :
    (ps.zip vs).lookup name = (lastIndex? name ps).bind fun i => vs[i]? := by
  induction ps generalizing vs with
  | nil => rfl
  | cons p ps ih =>
    cases vs with
    | nil => cases same
    | cons v vs =>
      obtain ⟨fresh, nodup'⟩ := List.nodup_cons.mp nodup
      have rest := ih nodup' (Nat.succ.inj same)
      rw [List.zip_cons_cons, List.lookup_cons, lastIndex?]
      by_cases here : name = p
      · subst here
        have absent : lastIndex? name ps = none := by
          cases later : lastIndex? name ps with
          | none => rfl
          | some i => exact absurd (mem_of_lastIndex? later) fresh
        simp [absent]
      · rw [beq_eq_false_iff_ne.mpr here, rest]
        cases later : lastIndex? name ps with
        | none => simp [Ne.symm here]
        | some i => simp

theorem Place.Sound.enterBlock {here : Place} (sound : here.Sound p addr c) :
    here.enterBlock.Sound p addr c := ⟨sound.covers.enterBlock, sound.shown, sound.leave⟩

variable {d : Declarations}

theorem Environment.find_eq {env : Environment} {name : String} {v : Datum}
    (found : (env.params.lookup name).or (env.declared? name) = some v) : env.find name = pure v := by
  unfold find
  rw [found]

theorem Declarations.Of.shown (of : d.Of p) (natives : c.natives = d.natives) {name : String}
    {b : Binding} (bound : d.scope.resolve name = .ok b) (frame : List Value) :
    ∃ v w, p.declared? name = some v ∧ v.Shows p addr w ∧ b.Gives c addr frame w := by
  rw [of.resolve_top] at bound
  cases found : d.scope.globals.lookup name with
  | none =>
    rw [found] at bound
    cases bound
  | some b' =>
    rw [found] at bound
    cases bound
    obtain ⟨item, declared, means⟩ := of.means found
    unfold Program.declared?
    rw [declared]
    cases means with
    | function here => exact ⟨_, _, rfl, .function here, rfl⟩
    | @native i q here =>
      have bound : c.natives[i]? = some q.native := by
        rw [natives, ← Array.getElem?_toList, of.natives, List.getElem?_map, here]
        rfl
      exact ⟨_, _, rfl, .native (List.mem_of_getElem? here), _, bound, rfl⟩

theorem Program.place_sound (of : d.Of p) (natives : c.natives = d.natives) :
    (p.place d).Sound p addr c where
  covers := of.covers_top false
  shown name b bound := by
    obtain ⟨v, w, declared, shows, gives⟩ := of.shown natives bound []
    exact ⟨v, w, Environment.find_eq declared, shows, gives⟩
  leave inside := nomatch inside

theorem Definition.place_sound (of : d.Of p) (natives : c.natives = d.natives) {f : Definition}
    (nodup : f.header.paramNames.Nodup) {values : List Datum} {args : List Value}
    (shows : List.Forall₂ (Datum.Shows p addr) values args)
    (arity : f.header.params.length = values.length) (back : Nat) (rest : List Value) :
    (f.place p d values back args rest).Sound p addr c where
  covers := of.covers_body f.header.paramNames true
  shown name b bound := by
    have same : f.header.paramNames.length = values.length := by
      rw [Header.paramNames, List.length_map, arity]
    have found := lookup_zip nodup same name
    change (d.scope.enterFunction f.header.paramNames).resolve name = .ok b at bound
    rw [of.resolve_body] at bound
    cases index : lastIndex? name f.header.paramNames with
    | none =>
      rw [index] at bound found
      obtain ⟨v, w, declared, shows, gives⟩ := of.shown natives bound (.address back :: (args ++ rest))
      refine ⟨v, w, Environment.find_eq ?_, shows, gives⟩
      change ((f.header.paramNames.zip values).lookup name).or (p.declared? name) = some v
      rw [found, Option.bind_none, Option.none_or, declared]
    | some i =>
      rw [index] at bound found
      cases bound
      have small : i < values.length := same ▸ lastIndex?_lt index
      have here := List.getElem?_eq_getElem small
      obtain ⟨w, there, shows⟩ := exists_shown shows here
      refine ⟨_, w, Environment.find_eq ?_, shows, ?_⟩
      · change ((f.header.paramNames.zip values).lookup name).or (p.declared? name) = some _
        rw [found, Option.bind_some, here, Option.some_or]
      · have inside := (List.getElem?_eq_some_iff.mp there).1
        change (args ++ rest)[i]? = some w
        rw [List.getElem?_append_left inside]
        exact there
  leave _ := by
    refine ⟨back, args, rest, rfl, rfl, ?_⟩
    rw [← shows.length_eq, ← arity]
    exact (List.length_map _).symm

end

end Tally
