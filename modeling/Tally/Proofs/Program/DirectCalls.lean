import Tally.Proofs.Machine.Arrivals
import Tally.Proofs.Program.CallSites
import Tally.Proofs.Program.Planned

namespace Tally

open Machine (on next)

section

variable {p : Program} {d : Declarations} {addr : Label → Nat} {c : Code}

theorem Declarations.Of.native_of_linked (of : d.Of p) (linked : (p.assembled d).LinkedTo addr c)
    {i : Nat} {q : Prototype} (here : p.prototypes[i]? = some q) : c.natives[i]? = some q.native := by
  have natives : c.natives = d.natives := linked.natives
  rw [natives, ← Array.getElem?_toList, of.natives, List.getElem?_map, here]
  rfl

theorem Program.offers (of : d.Of p) (kept : p.violations = []) (fit : p.LiteralsFit)
    (linked : (p.assembled d).LinkedTo addr c) {natives : Native → Prop}
    (declared : ∀ q ∈ p.prototypes, natives q.native) :
    (Program.plan d addr c).Offers (p.assembled d).lines.toList natives where
  holds := linked.holds
  length := linked.length
  start := by
    have holds : c.Holds addr 0 ((p.topSegment d.scope d.pending.size).lines ++ _) := linked.holds
    exact Plan.site_of_sound (k := Program.plan d addr c) holds.left
      (p.sound_segments of kept fit _ List.mem_cons_self)
  targets i l member target :=
    mem_labelsOf.mp ((p.wellLabelled of kept fit).targets i l member target)
  functions a f found := by
    obtain ⟨inTable, rfl⟩ := Code.mem_of_functionAt? found
    have member : f ∈ c.functions := inTable
    rw [linked.functions] at member
    obtain ⟨g, inside, rfl⟩ := List.mem_map.mp member
    obtain ⟨pair, pending, rfl⟩ := List.mem_map.mp inside
    obtain ⟨g, l⟩ := pair
    rw [of.pending] at pending
    have here := List.mem_zipIdx_iff_getElem?.mp pending
    obtain ⟨labels, segment, stands⟩ := linked.exists_segment of here
    have named := (p.wellLabelled of kept fit).entries _ inside
    exact ⟨l, g.header.params.length, mem_labelsOf.mp named, rfl, rfl,
      Plan.site_of_sound (k := Program.plan d addr c) stands (p.sound_segments of kept fit _ segment)⟩
  natives i small := by
    have bound : i < p.prototypes.length := by
      rw [← of.size_natives]
      exact small
    exact ⟨_, of.native_of_linked linked (List.getElem?_eq_getElem bound),
      declared _ (List.getElem_mem bound)⟩

theorem Program.passes_of_fed (of : d.Of p) (kept : p.violations = []) (fit : p.LiteralsFit)
    (linked : (p.assembled d).LinkedTo addr c) {natives : Native → Prop} {pc : Nat} {a : Activations}
    (arrives : (Program.plan d addr c).Arrives (p.assembled d).lines.toList natives pc a)
    {site : CallSite} (member : site ∈ p.callSites) (here : site.offset = pc) (direct : site.Direct)
    {v : Value} (top : a.temps.head? = some v) : c.callFault? site.args v = none := by
  have carries := p.carries of kept addr
  obtain ⟨name, callee, free⟩ := direct
  obtain ⟨before, depth, b, after, bound, split, offset⟩ :=
    carries.fed site member name callee free
  obtain ⟨item, found, means⟩ := of.means bound
  have called : CallBehind (p.assembled d).lines.toList (b.instr depth) pc := by
    refine ⟨before, site.args, after, split, ?_⟩
    rw [b.size_instr, ← here, offset, Nat.zero_add]
  have arity := carries.arity site member name callee free
  rw [Globals.lookup_declareAll, found] at arity
  cases means with
  | @function l f there =>
    have value := arrives.fed _ _ called rfl
    cases top.symm.trans value
    have same : f.header.params.length = site.args := arity _ rfl
    exact Code.callFault?_address (linked.functionAt? of kept fit there) (congrArg Nat.cast same)
  | @native i q there =>
    have native := of.native_of_linked linked there
    have value := arrives.fed _ (.native q.native) called (by
      change c.natives[i]?.map Value.native = _
      rw [native]
      rfl)
    cases top.symm.trans value
    have same : q.header.params.length = site.args := arity _ rfl
    exact Code.callFault?_native (congrArg Nat.cast same)

end

/-- How a machine fares that is about to execute an instruction of code with these calls. -/
structure Machine.Checked {σ : Type} (setup : Setup σ) (sites : List CallSite) (m : Machine σ) :
    Prop where
  listed : ∀ args, setup.code.HasInstr m.pc (.call args) →
    ∃ site ∈ sites, site.offset = m.pc ∧ site.args = args
  direct : ∀ site ∈ sites, site.offset = m.pc → site.Direct →
    ∃ v, m.stack.top? = some v ∧ setup.code.callFault? site.args v = none
  fails : ∀ f own m', next setup m = .halt (.fault f own) m' → f.OfCall →
    ∃ args v, setup.code.HasInstr m.pc (.call args) ∧ m.stack.top? = some v ∧
      ((setup.code.callFault? args v = some f ∧
          ∀ site ∈ sites, site.offset = m.pc → site.Indirect) ∨
        (setup.code.callFault? args v = none ∧ ∃ n, v = .native n))

section

variable {p : Program} {d : Declarations} {addr : Label → Nat} {c : Code} {natives : Native → Prop}
  {pc : Nat} {a : Activations}

theorem Plan.Arrives.top_of_call {k : Plan} {ls : List Line} {natives : Native → Prop} {args : Nat}
    (arrives : k.Arrives ls natives pc a) (call : k.code.HasInstr pc (.call args)) :
    ∃ v more, a.temps = v :: more ∧ a.values = v :: (more ++ a.rest) := by
  obtain ⟨i, depth', there, counted, _⟩ := arrives.site.cases
  rw [← i.depthAfter_map k.addr, there.unique call] at counted
  have enough := (Instr.counted_call counted).1
  exact a.exists_cons (by omega)

theorem Program.checked_of_arrives {σ : Type} {registry : Registry σ} {capacity : Nat} {host : σ}
    (of : d.Of p) (kept : p.violations = []) (fit : p.LiteralsFit)
    (linked : (p.assembled d).LinkedTo addr c)
    (arrives : (Program.plan d addr c).Arrives (p.assembled d).lines.toList natives pc a) :
    (on pc a.values host).Checked ⟨c, registry, capacity⟩ p.callSites := by
  have carries := p.carries of kept addr
  have passes : ∀ site ∈ p.callSites, site.offset = pc → site.Direct →
      ∃ v, a.values.head? = some v ∧ c.callFault? site.args v = none := by
    intro site member here direct
    obtain ⟨v, more, split, values⟩ :=
      arrives.top_of_call (carries.hasInstr linked.holds member here)
    have top : a.temps.head? = some v := by
      rw [split]
      rfl
    exact ⟨v, by rw [values]; rfl, passes_of_fed of kept fit linked arrives member here direct top⟩
  refine ⟨?_, passes, ?_⟩
  · intro args call
    obtain ⟨i, listed⟩ := arrives.listed
    obtain ⟨site, member, here⟩ :=
      carries.exists_site listed ((listed.hasInstr linked.holds).unique call)
    cases (carries.hasInstr linked.holds member here).unique call
    exact ⟨site, member, here, rfl⟩
  · intro f own m' halted ofCall
    obtain ⟨i, _, there, _⟩ := arrives.site.cases
    have here : c.HasInstr pc (i.map addr) := there
    obtain ⟨args, same⟩ := Machine.exists_call_of_halt here halted ofCall
    rw [same] at here
    obtain ⟨v, more, split, values⟩ := arrives.top_of_call here
    have top : a.values.head? = some v := by
      rw [values]
      rfl
    rw [values] at halted
    refine ⟨args, v, here, top, ?_⟩
    rcases Machine.callFault?_of_halt here halted ofCall with failed | native
    · left
      refine ⟨failed, ?_⟩
      intro site member offset
      rcases site.direct_or_indirect with direct | indirect
      · -- What the name stands for is on top and passes the check that failed.
        exfalso
        obtain ⟨w, top', passed⟩ := passes site member offset direct
        cases (carries.hasInstr linked.holds member offset).unique here
        cases top.symm.trans top'
        cases failed.symm.trans passed
      · exact indirect
    · exact Or.inr native

end

/-- A run never fails a check of a call at the call of a declared name, as long as its natives
replace their arguments by one value; what fails is a call through a parameter, a number, a sum or
the result of a call. -/
theorem Program.direct_calls_pass {σ τ : Type} {text filename : String} {p : Program} {c : Code}
    {registry : Registry σ} {natives : Native → Prop} {capacity : Nat}
    (read : Program.parse text = .ok p) (kept : p.violations = [])
    (compiled : p.compile registry.knows filename = .ok c)
    (declared : ∀ q ∈ p.prototypes, natives q.native)
    (replaces : (Setup.mk c registry capacity).Replaces natives) (observe : τ → Event → τ)
    {limit : Nat} {seen seen' : τ} {host : σ} {m : Machine σ}
    (ran : Machine.run ⟨c, registry, capacity⟩ observe limit seen (.start host) =
      (.exhausted, seen', m)) :
    (∃ listing, c.instrs = .ok listing ∧
      Listing.calls listing = p.callSites.map fun site => (site.offset, site.args)) ∧
    m.Checked ⟨c, registry, capacity⟩ p.callSites := by
  have fit := literalsFit_of_parse read
  obtain ⟨d, addr, of, linked⟩ := linked_of_compile kept fit compiled
  have offers := Program.offers of kept fit linked declared
  have first : (Program.plan d addr c).Holds (p.assembled d).lines.toList natives (.start host) :=
    ⟨0, .top [], host, rfl, .at_start offers⟩
  have step : ∀ m m', (Program.plan d addr c).Holds (p.assembled d).lines.toList natives m →
      next ⟨c, registry, capacity⟩ m = .next m' →
        (Program.plan d addr c).Holds (p.assembled d).lines.toList natives m' := by
    rintro m m' ⟨pc, a, host, rfl, arrives⟩ stepped
    exact arrives.step offers replaces stepped
  obtain ⟨pc, a, host', rfl, arrives⟩ := Machine.kept_of_run observe step first ran
  exact ⟨⟨_, Code.instrs_of_holds linked.holds linked.length, (p.carries of kept addr).calls⟩,
    checked_of_arrives of kept fit linked arrives⟩

theorem Setup.replaces_builtins (c : Code) (capacity : Nat) :
    (Setup.inMemory c capacity).Replaces Native.Builtin := by
  intro n builtin args m m' _ called
  obtain ⟨arity, _, _, routine, asked, executed⟩ := Setup.callNative_eq_ok called
  have whole : m = on m.pc m.stack.toList m.host := Machine.eq_on rfl rfl
  rw [whole] at executed
  rcases builtin with ⟨primitive, one⟩ | ⟨primitive, none⟩
  · cases (Machine.asked_print primitive).symm.trans asked
    have same : args = 1 := Rat.natCast_inj.mp (arity.symm.trans one)
    subst same
    cases split : m.stack.toList with
    | nil =>
      rw [split] at executed
      cases executed
    | cons v vs =>
      rw [split] at executed
      cases v with
      | int z =>
        change (Exec.push capacity (.int z) >>= fun _ => pure ())
          (on m.pc vs (m.host.write z.toInt)) = _ at executed
        rw [Machine.bind_pure_unit] at executed
        cases Exec.push_eq_ok executed
        exact ⟨.int z, nofun, rfl⟩
      | native _ | address _ => cases executed
  · cases (Machine.asked_read primitive).symm.trans asked
    have same : args = 0 := Rat.natCast_inj.mp (arity.symm.trans none)
    subst same
    change (Exec.push capacity (.ofInt m.host.read.1) >>= fun _ => pure ())
      (on m.pc m.stack.toList m.host.read.2) = _ at executed
    rw [Machine.bind_pure_unit] at executed
    cases Exec.push_eq_ok executed
    exact ⟨.ofInt m.host.read.1, nofun, rfl⟩

theorem Program.direct_calls_pass_sample : ∃ p, Program.parse sampleText = .ok p ∧
    p.violations = [] ∧ p.compile (Registry.builtins Memory.channel).knows "sample" = .ok sampleCode ∧
    (∃ listing, sampleCode.instrs = .ok listing ∧
      Listing.calls listing = p.callSites.map fun site => (site.offset, site.args)) ∧
    (on 19 [.address 26, .native ⟨"print", "print_int", 1⟩, .int 3] (Memory.ofInputs [])).Checked
      (.inMemory sampleCode 100) p.callSites := by
  obtain ⟨p, read, kept, binds, compiled, _⟩ := exists_sample
  have ran : Machine.run (.inMemory sampleCode 100) (fun _ _ => ()) 3 () (.start (.ofInputs [])) =
      (.exhausted, (), on 19 [.address 26, .native ⟨"print", "print_int", 1⟩, .int 3]
        (.ofInputs [])) := rfl
  exact ⟨p, read, kept, compiled, Program.direct_calls_pass read kept compiled
    (fun q member => binds.builtin member) (Setup.replaces_builtins sampleCode 100) (fun _ _ => ())
    ran⟩

end Tally
