import Tally.Proofs.Token.Segmented

namespace Tally

theorem Token.Spelt.ne_eof {t : Token} (spelt : t.Spelt) : t.kind ≠ .eof := by
  intro kind
  unfold Spelt at spelt
  rw [kind] at spelt
  exact spelt

theorem Segmented.spelt {p q : Position} {cs left : List Char} {ts : List Token}
    (segmented : Segmented p cs ts q left) : ∀ t ∈ ts, t.Spelt := by
  induction segmented with
  | done => nofun
  | token between place spelt maximal more ih => exact List.forall_mem_cons.mpr ⟨spelt, ih⟩

theorem Token.Spelt.lexeme_ne_nil {t : Token} (spelt : t.Spelt) : t.lexeme ≠ [] := by
  obtain ⟨kind, text, start⟩ := t
  cases kind with
  | eof => exact absurd rfl spelt.ne_eof
  | string => nofun
  | int => exact spelt.1
  | ident =>
    obtain ⟨⟨c, cs, chars, _⟩, _⟩ := spelt
    intro empty
    cases chars.symm.trans empty
  | _ =>
    cases spelt
    simp [lexeme]

theorem Segmented.increasing {p q : Position} {cs left : List Char} {ts : List Token}
    (segmented : Segmented p cs ts q left) : p.char ≤ q.char ∧
      (∀ t ∈ ts, p.char ≤ t.start.char ∧ t.start.char < q.char) ∧
      ts.Pairwise fun s t => s.start.char < t.start.char := by
  induction segmented with
  | done => exact ⟨Nat.le_refl _, nofun, .nil⟩
  | @token p q gap rest left t ts between place spelt maximal more ih =>
    obtain ⟨ends, within, apart⟩ := ih
    have begins : p.char ≤ t.start.char := by
      rw [place, Position.char_after]
      exact Nat.le_add_right _ _
    have some := List.length_pos_iff.mpr spelt.lexeme_ne_nil
    rw [Position.char_after] at ends within
    refine ⟨by omega, List.forall_mem_cons.mpr ⟨by omega, fun u member => ?_⟩, .cons ?_ apart⟩
    · have here := within u member
      omega
    · intro u member
      have here := within u member
      omega

theorem Unreadable.char_le {p : Position} {cs : List Char} {e : LexError}
    (unreadable : Unreadable p cs e) : p.char ≤ e.position.char := by
  cases unreadable with
  | character | string | large => exact Nat.le_refl _
  | glued =>
    rw [Position.char_after]
    exact Nat.le_add_right _ _

namespace TokenStream

theorem spelt (text : String) : ∀ t ∈ (ofText text).tokens, t.Spelt := by
  obtain ⟨ts, q, left, tokens, segmented, _⟩ := readOn_segmented [] (Cursor.ofText text)
  unfold ofText
  rw [tokens]
  exact segmented.spelt

theorem ne_eof (text : String) : ∀ t ∈ (ofText text).tokens, t.kind ≠ .eof :=
  fun t member => (spelt text t member).ne_eof

theorem of_tokenize {text : String} {ts : List Token} {ending : Position}
    (lexed : tokenize text = .ok (ts ++ [⟨.eof, "", ending⟩])) :
    ofText text = ⟨ts, .eof ending⟩ := by
  unfold tokenize at lexed
  dsimp only at lexed
  generalize ofText text = stream at lexed ⊢
  obtain ⟨tokens, last⟩ := stream
  cases last with
  | fault e => cases lexed
  | eof p =>
    obtain ⟨rfl, same⟩ := List.append_inj' (Except.ok.inj lexed) rfl
    cases same
    rfl

theorem tokenize_eq {text : String} {ts : List Token} {ending : Position}
    (stream : ofText text = ⟨ts, .eof ending⟩) :
    tokenize text = .ok (ts ++ [⟨.eof, "", ending⟩]) := by
  unfold tokenize
  rw [stream]

def last : Ending → Position
  | .eof position => position
  | .fault e => e.position

theorem increasing (text : String) : (∀ t ∈ (ofText text).tokens,
      t.start.char < (last (ofText text).ending).char) ∧
    (ofText text).tokens.Pairwise fun s t => s.start.char < t.start.char := by
  obtain ⟨ts, q, left, tokens, segmented, leaves⟩ := readOn_segmented [] (Cursor.ofText text)
  obtain ⟨_, within, apart⟩ := segmented.increasing
  unfold ofText
  rw [tokens]
  refine ⟨fun t member => Nat.lt_of_lt_of_le (within t member).2 ?_, apart⟩
  cases ending : (readOn [] (Cursor.ofText text)).ending with
  | eof p =>
    rw [ending] at leaves
    rw [last, leaves.2, Position.char_after]
    exact Nat.le_add_right _ _
  | fault e =>
    rw [ending] at leaves
    obtain ⟨gap, rest, _, _, unreadable⟩ := leaves
    have behind : (q.after gap).char ≤ e.position.char := unreadable.char_le
    rw [Position.char_after] at behind
    exact Nat.le_trans (Nat.le_add_right _ _) behind

end TokenStream

theorem nodup_starts {text : String} {ts : List Token} {t : Token}
    (lexed : tokenize text = .ok (ts ++ [⟨.eof, "", t.start⟩])) :
    ((ts ++ [t]).map Token.start).Nodup := by
  have stream := TokenStream.of_tokenize lexed
  have increasing := TokenStream.increasing text
  rw [stream] at increasing
  have all : (ts ++ [t]).Pairwise fun s t => s.start.char < t.start.char :=
    List.pairwise_append.mpr ⟨increasing.2, List.pairwise_singleton _ _, fun u member v last => by
      rw [List.mem_singleton.mp last]
      exact increasing.1 u member⟩
  apply List.pairwise_map.mpr
  exact all.imp fun less same => absurd (congrArg Position.char same) (Nat.ne_of_lt less)

end Tally
