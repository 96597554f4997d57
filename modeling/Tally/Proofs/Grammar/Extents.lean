import Tally.Proofs.Grammar.Exact
import Tally.Proofs.Program.Declared

namespace Tally

theorem Segmented.length_le {p q : Position} {cs left : List Char} {ts : List Token}
    (segmented : Segmented p cs ts q left) : ts.length ≤ cs.length := by
  induction segmented with
  | done => exact Nat.zero_le _
  | token between place spelt maximal more ih =>
    have nonempty := List.length_pos_iff.mpr spelt.lexeme_ne_nil
    rw [List.length_cons, List.length_append, List.length_append]
    omega

theorem TokenStream.length_le (text : String) : (ofText text).tokens.length ≤ text.length := by
  obtain ⟨ts, q, left, tokens, segmented, _⟩ := readOn_segmented [] (Cursor.ofText text)
  have characters : (Cursor.ofText text).rest.length ≤ text.length :=
    (List.takeWhile_prefix _).length_le
  unfold ofText
  rw [tokens]
  exact Nat.le_trans segmented.length_le characters

namespace Grammar

variable {g : Grammar}

theorem CommaList.length_le {α : Type} {trailing : Prop} {one : α → List Token → Prop} {n : Nat}
    (least : ∀ a us, one a us → n ≤ us.length) {as : List α} {ts : List Token}
    (list : CommaList trailing one as ts) : n * as.length ≤ ts.length := by
  induction list with
  | nil => exact Nat.zero_le _
  | last item =>
    rw [List.length_singleton, Nat.mul_one]
    exact least _ _ item
  | cons item comma more ends ih =>
    have first := least _ _ item
    rw [List.length_cons, Nat.mul_succ, List.length_append, List.length_cons]
    omega

theorem Heading.params_le {trailing : Prop} {h : Header} {ts : List Token}
    (heading : Heading trailing h ts) : 3 * h.params.length ≤ ts.length := by
  cases heading with
  | typed word named opens list closes colons types =>
    have least (a : Param) (us : List Token) (item : Parameter a us) : 3 ≤ us.length := by
      cases item
      exact Nat.le_refl 3
    have params := list.length_le least
    simp only [List.length_cons, List.length_append]
    omega

theorem Entry.params_le {f : Definition} {ts : List Token} {next : Token.Kind}
    (entry : Entry g (.definition f) ts next) : 3 * f.header.params.length ≤ ts.length := by
  cases entry with
  | definition heading body closing =>
    rw [List.length_append]
    exact Nat.le_trans heading.params_le (Nat.le_add_right _ _)

theorem Entry.pos_of_prototype {q : Prototype} {ts : List Token} {next : Token.Kind}
    (entry : Entry g (.prototype q) ts next) : 0 < ts.length := by
  cases entry with
  | prototype heading assigns named closing =>
    rw [List.length_append, List.length_cons]
    omega

theorem Sequence.params_le {items : List Item} {ts : List Token} {next : Token.Kind}
    (entries : Sequence (Entry g) items ts next) {f : Definition}
    (member : .definition f ∈ items) : 3 * f.header.params.length ≤ ts.length := by
  induction entries with
  | nil => cases member
  | cons first more ih =>
    rw [List.length_append]
    rcases List.mem_cons.mp member with rfl | member
    · exact Nat.le_trans first.params_le (Nat.le_add_right _ _)
    · exact Nat.le_trans (ih member) (Nat.le_add_left _ _)

theorem Sequence.prototypes_le {items : List Item} {ts : List Token} {next : Token.Kind}
    (entries : Sequence (Entry g) items ts next) :
    (Program.mk items).prototypes.length ≤ ts.length := by
  induction entries with
  | nil => exact Nat.le_refl 0
  | @cons item items us vs next first more ih =>
    have split : (Program.mk (item :: items)).prototypes =
        (Program.mk [item]).prototypes ++ (Program.mk items).prototypes :=
      Program.prototypes_append [item] items
    have one : (Program.mk [item]).prototypes.length ≤ us.length := by
      cases item with
      | prototype q => exact first.pos_of_prototype
      | definition f => exact Nat.zero_le _
      | stmt s => exact Nat.zero_le _
    rw [split, List.length_append, List.length_append]
    omega

end Grammar

namespace Program

variable {text : String} {p : Program}

theorem exists_tokens (read : parse text = .ok p) :
    ∃ ts, ts.length ≤ text.length ∧ Grammar.greedy.Derives p ts := by
  obtain ⟨ts, ending, lexed, derived⟩ := exists_derivation read
  have tokens := TokenStream.length_le text
  rw [TokenStream.of_tokenize lexed] at tokens
  exact ⟨ts, tokens, derived⟩

theorem params_le_of_parse (read : parse text = .ok p) {f : Definition}
    (member : f ∈ p.definitions) : 3 * f.header.params.length ≤ text.length := by
  obtain ⟨ts, short, derived⟩ := exists_tokens read
  obtain ⟨item, inside, same⟩ := List.mem_filterMap.mp member
  cases item with
  | definition f' =>
    cases same
    exact Nat.le_trans (derived.params_le inside) short
  | prototype q => cases same
  | stmt s => cases same

theorem prototypes_le_of_parse (read : parse text = .ok p) : p.prototypes.length ≤ text.length := by
  obtain ⟨ts, short, derived⟩ := exists_tokens read
  exact Nat.le_trans derived.prototypes_le short

end Program

end Tally
