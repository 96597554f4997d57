import Tally.Proofs.Machine.Runs
import Tally.Program.Meaning

namespace Tally

namespace Machine

variable {setup : Setup Memory} {bound : Nat} {m m' m'' : Machine Memory}

/-- A machine that runs out of room, having written the first of these numbers. -/
def Overflows (setup : Setup Memory) (m : Machine Memory) (output : List Int) : Prop :=
  ∃ pc m', Ends setup m (.fault .stackOverflow pc) m' ∧ m'.host.output <+: output

/-- One machine leads to another by some steps, unless it runs out of room. -/
def Leads (setup : Setup Memory) (least : Nat) (m m' : Machine Memory) : Prop :=
  m.host.output <+: m'.host.output ∧
    ((∃ n, least ≤ n ∧ Reaches setup n m m') ∨ Overflows setup m m'.host.output)

def Breaks (setup : Setup Memory) (bound : Nat) (m : Machine Memory) (left : Memory) :
    Interruption → Prop
  | .fault f => (∃ pc m', Ends setup m (.fault f pc) m' ∧ m'.host = left) ∨
      Overflows setup m left.output
  | .unfinished => (∃ n m', bound ≤ n ∧ Reaches setup n m m') ∨ Overflows setup m left.output
  | .meaningless => False

/-- What the machine does until the evaluation has a result, and what holds then. An evaluation
that is unfinished leaves the machine running for as many steps as the bound says. -/
def Follows {α : Type} (setup : Setup Memory) (bound : Nat) (m : Machine Memory) (x : Evaluation α)
    (post : α → Machine Memory → Prop) : Prop :=
  match x m.host with
  | .ok a left => ∃ m', m'.host = left ∧ Leads setup 0 m m' ∧ post a m'
  | .error e left => m.host.output <+: left.output ∧ Breaks setup bound m left e

theorem Overflows.mono {output output' : List Int} (overflows : Overflows setup m output)
    (more : output <+: output') : Overflows setup m output' := by
  obtain ⟨pc, m', ends, written⟩ := overflows
  exact ⟨pc, m', ends, written.trans more⟩

theorem Reaches.overflows {n : Nat} {output : List Int} (path : Reaches setup n m m')
    (overflows : Overflows setup m' output) : Overflows setup m output := by
  obtain ⟨pc, m'', ends, written⟩ := overflows
  exact ⟨pc, m'', path.ends ends, written⟩

namespace Leads

theorem refl (m : Machine Memory) : Leads setup 0 m m :=
  ⟨List.prefix_rfl, Or.inl ⟨0, Nat.le_refl 0, .refl m⟩⟩

theorem of_next (step : next setup m = .next m') (same : m'.host = m.host) :
    Leads setup 1 m m' :=
  ⟨same ▸ List.prefix_rfl, Or.inl ⟨1, Nat.le_refl 1, .single step⟩⟩

theorem of_pushes {origin pc : Nat} {v : Value} {vs : List Value} {host : Memory}
    (pushes : (next setup m).Pushes setup origin pc v vs host)
    (written : m.host.output <+: host.output) : Leads setup 1 m (on pc (v :: vs) host) := by
  refine ⟨written, ?_⟩
  rcases pushes with ⟨_, step⟩ | ⟨_, m', halted, same⟩
  · exact Or.inl ⟨1, Nat.le_refl 1, .single step⟩
  · exact Or.inr ⟨origin, m', ⟨0, m, .refl m, halted⟩, same ▸ List.prefix_rfl⟩

theorem overflows_or {least : Nat} {output : List Int} (leads : Leads setup least m m')
    (more : m'.host.output <+: output) :
    (∃ n, least ≤ n ∧ Reaches setup n m m') ∨ Overflows setup m output := by
  rcases leads.2 with path | overflows
  · exact Or.inl path
  · exact Or.inr (overflows.mono more)

theorem trans {least least' : Nat} (first : Leads setup least m m')
    (second : Leads setup least' m' m'') : Leads setup (least + least') m m'' := by
  refine ⟨first.1.trans second.1, ?_⟩
  rcases first.overflows_or second.1 with ⟨n, long, path⟩ | overflows
  · rcases second.2 with ⟨k, long', path'⟩ | overflows
    · exact Or.inl ⟨n + k, Nat.add_le_add long long', path.trans path'⟩
    · exact Or.inr (path.overflows overflows)
  · exact Or.inr overflows

theorem mono {least least' : Nat} (leads : Leads setup least' m m') (fewer : least ≤ least') :
    Leads setup least m m' := by
  refine ⟨leads.1, ?_⟩
  rcases leads.2 with ⟨n, long, path⟩ | overflows
  · exact Or.inl ⟨n, Nat.le_trans fewer long, path⟩
  · exact Or.inr overflows

theorem breaks {least : Nat} {left : Memory} {e : Interruption} (leads : Leads setup least m m')
    (written : m'.host.output <+: left.output) (breaks : Breaks setup bound m' left e) :
    Breaks setup (least + bound) m left e := by
  cases e with
  | fault f =>
    rcases leads.overflows_or written with ⟨n, _, path⟩ | overflows
    · rcases breaks with ⟨pc, m'', ends, same⟩ | overflows
      · exact Or.inl ⟨pc, m'', path.ends ends, same⟩
      · exact Or.inr (path.overflows overflows)
    · exact Or.inr overflows
  | unfinished =>
    rcases leads.overflows_or written with ⟨n, long, path⟩ | overflows
    · rcases breaks with ⟨k, m'', long', path'⟩ | overflows
      · exact Or.inl ⟨n + k, m'', Nat.add_le_add long long', path.trans path'⟩
      · exact Or.inr (path.overflows overflows)
    · exact Or.inr overflows
  | meaningless => cases breaks

end Leads

namespace Follows

variable {α β : Type} {x y : Evaluation α} {post : α → Machine Memory → Prop}

theorem pure {a : α} (holds : post a m) : Follows setup bound m (pure a) post :=
  ⟨m, rfl, .refl m, holds⟩

theorem fault {f : Fault} {pc : Number} (halted : next setup m = .halt (.fault f pc) m')
    (same : m'.host = m.host) : Follows setup bound m (throw (.fault f)) post :=
  ⟨List.prefix_rfl, Or.inl ⟨pc, m', ⟨0, m, .refl m, halted⟩, same⟩⟩

theorem unfinished : Follows setup 0 m (throw .unfinished) post :=
  ⟨List.prefix_rfl, Or.inl ⟨0, m, Nat.le_refl 0, .refl m⟩⟩

theorem after {least : Nat} (leads : Leads setup least m m') (follows : Follows setup bound m' y post)
    (same : x m.host = y m'.host) : Follows setup (least + bound) m x post := by
  unfold Follows at follows ⊢
  rw [same]
  cases result : y m'.host with
  | ok a left =>
    rw [result] at follows
    obtain ⟨m'', host, leads', holds⟩ := follows
    exact ⟨m'', host, (leads.trans leads').mono (Nat.zero_le _), holds⟩
  | error e left =>
    rw [result] at follows
    obtain ⟨written, breaks⟩ := follows
    exact ⟨leads.1.trans written, leads.breaks written breaks⟩

theorem mono {bound' : Nat} (follows : Follows setup bound' m x post) (less : bound ≤ bound') :
    Follows setup bound m x post := by
  unfold Follows at follows ⊢
  cases result : x m.host with
  | ok a left =>
    rw [result] at follows
    exact follows
  | error e left =>
    rw [result] at follows
    refine ⟨follows.1, ?_⟩
    cases e with
    | fault f => exact follows.2
    | unfinished =>
      rcases follows.2 with ⟨n, m', long, path⟩ | overflows
      · exact Or.inl ⟨n, m', Nat.le_trans less long, path⟩
      · exact Or.inr overflows
    | meaningless => cases follows.2

theorem step (stepped : next setup m = .next m') (host : m'.host = m.host)
    (follows : Follows setup bound m' x post) : Follows setup (bound + 1) m x post := by
  rw [Nat.add_comm]
  exact after (.of_next stepped host) follows (by rw [host])

theorem push {origin pc : Nat} {v : Value} {vs : List Value}
    (pushes : (next setup m).Pushes setup origin pc v vs m.host)
    (follows : Follows setup bound (on pc (v :: vs) m.host) x post) :
    Follows setup (bound + 1) m x post := by
  rw [Nat.add_comm]
  exact after (.of_pushes pushes List.prefix_rfl) follows rfl

theorem pushed {a : α} {origin pc : Nat} {v : Value} {vs : List Value} {host : Memory}
    (pushes : (next setup m).Pushes setup origin pc v vs host)
    (written : m.host.output <+: host.output) (result : x m.host = .ok a host)
    (holds : post a (on pc (v :: vs) host)) : Follows setup bound m x post := by
  unfold Follows
  rw [result]
  exact ⟨_, rfl, (Leads.of_pushes pushes written).mono (Nat.zero_le 1), holds⟩

theorem bind {f : α → Evaluation β} {post' : β → Machine Memory → Prop}
    (first : Follows setup bound m x post)
    (rest : ∀ a m', post a m' → Follows setup bound m' (f a) post') :
    Follows setup bound m (x >>= f) post' := by
  unfold Follows at first
  cases result : x m.host with
  | ok a left =>
    rw [result] at first
    obtain ⟨m', host, leads, holds⟩ := first
    have second := after (x := x >>= f) leads (rest a m' holds)
      ((bind_of_ok result).trans (by rw [host]))
    rw [Nat.zero_add] at second
    exact second
  | error e left =>
    rw [result] at first
    unfold Follows
    rw [bind_of_error result]
    exact first

theorem map {f : α → β} {post' : β → Machine Memory → Prop}
    (first : Follows setup bound m x post) (holds : ∀ a m', post a m' → post' (f a) m') :
    Follows setup bound m (f <$> x) post' := by
  rw [map_eq_pure_bind]
  exact first.bind fun a m' here => pure (holds a m' here)

theorem imp {post' : α → Machine Memory → Prop} (first : Follows setup bound m x post)
    (holds : ∀ a m', post a m' → post' a m') : Follows setup bound m x post' := by
  have mapped := first.map (f := id) holds
  rw [id_map] at mapped
  exact mapped

end Follows

end Machine

end Tally
