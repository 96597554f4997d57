import Tally.Proofs.Effects
import Tally.Proofs.Grammar.Printed

namespace Tally

open Grammar

theorem le_toNat_digitChar : ∀ k < 16, 0x20 ≤ k.digitChar.toNat ∧ k.digitChar ≠ '"' := by
  decide

theorem escapeChar_cases (c : Char) : Unescaped c ∧ escapeChar c = [c] ∨
    ¬ Unescaped c ∧ ∃ d ds, escapeChar c = '\\' :: d :: ds ∧
      ∀ e ∈ d :: ds, 0x20 ≤ e.toNat ∧ (e = '"' → c = '"') := by
  have hex (k : Nat) : 0x20 ≤ (k % 16).digitChar.toNat ∧ (k % 16).digitChar ≠ '"' :=
    le_toNat_digitChar _ (Nat.mod_lt _ (by decide))
  unfold escapeChar
  split
  case h_8 noQuote noBackslash _ _ _ _ _ =>
    by_cases small : c.toNat < 0x20
    · rw [if_pos small]
      refine .inr ⟨fun plain => Nat.not_lt_of_le plain.2.2 small, 'u', _, rfl, ?_⟩
      simp [fourHexDigits, hex]
    · rw [if_neg small]
      exact .inl ⟨⟨noQuote, noBackslash, Nat.le_of_not_lt small⟩, rfl⟩
  all_goals exact .inr ⟨by simp [Unescaped], _, [], rfl, by simp⟩

theorem escapeChar_inside {c d : Char} (other : c ≠ '"') (member : d ∈ escapeChar c) :
    d ≠ '"' ∧ d ≠ '\n' ∧ d ≠ '\x00' := by
  have readable : 0x20 ≤ d.toNat ∧ d ≠ '"' := by
    rcases escapeChar_cases c with ⟨plain, same⟩ | ⟨_, e, es, same, rest⟩
    · rw [same, List.mem_singleton] at member
      exact member ▸ ⟨plain.2.2, plain.1⟩
    · rw [same] at member
      rcases List.mem_cons.mp member with rfl | member
      · decide
      · exact (rest d member).imp_right fun quote same => other (quote same)
  obtain ⟨large, noQuote⟩ := readable
  refine ⟨noQuote, ?_, ?_⟩ <;> intro same <;> rw [same] at large <;> revert large <;> decide

theorem escaped_inside {name : String} (spelt : ∀ c ∈ name.toList, c ≠ '"' ∧ c ≠ '\n') :
    ∀ d ∈ (escaped name).toList, d ≠ '"' ∧ d ≠ '\n' ∧ d ≠ '\x00' := by
  intro d member
  rw [escaped, String.toList_ofList] at member
  obtain ⟨c, inside, here⟩ := List.mem_flatMap.mp member
  exact escapeChar_inside (spelt c inside).1 here

theorem length_le_flatMap_escapeChar (cs : List Char) :
    cs.length ≤ (cs.flatMap escapeChar).length := by
  induction cs with
  | nil => exact Nat.le_refl 0
  | cons c cs ih =>
    rw [List.flatMap_cons, List.length_append, List.length_cons]
    have some : 0 < (escapeChar c).length := by
      rcases escapeChar_cases c with ⟨_, same⟩ | ⟨_, d, ds, same, _⟩ <;> simp [same]
    omega

theorem flatMap_escapeChar_eq_iff (cs : List Char) :
    cs.flatMap escapeChar = cs ↔ ∀ c ∈ cs, Unescaped c := by
  induction cs with
  | nil => simp
  | cons c cs ih =>
    rw [List.forall_mem_cons, List.flatMap_cons]
    rcases escapeChar_cases c with ⟨plain, same⟩ | ⟨special, d, ds, same, _⟩
    · rw [same, List.singleton_append, List.cons_inj_right, ih]
      exact (and_iff_right plain).symm
    · have longer := length_le_flatMap_escapeChar cs
      constructor
      · intro equal
        have lengths := congrArg List.length equal
        rw [same, List.length_append, List.length_cons, List.length_cons, List.length_cons] at lengths
        omega
      · exact fun all => absurd all.1 special

theorem Prototype.isPlain_iff (q : Prototype) : q.IsPlain ↔ escaped q.primitive = q.primitive := by
  rw [IsPlain, ← flatMap_escapeChar_eq_iff, escaped, ← String.toList_inj, String.toList_ofList]

namespace Item

variable {i : Item} {is : List Item}

theorem length_joinedFrom_le (i : Item) (is : List Item) :
    (joinedFrom i is).length ≤ is.length + 1 := by
  induction is generalizing i with
  | nil => exact Nat.le_refl 1
  | cons j js ih =>
    unfold joinedFrom
    split
    · exact Nat.le_succ_of_le (ih _)
    · exact Nat.succ_le_succ (ih j)

theorem length_joinedFrom_eq_iff (i : Item) (is : List Item) :
    (joinedFrom i is).length = is.length + 1 ↔ (i :: is).IsChain fun i j => ¬ i.Joins j := by
  induction is generalizing i with
  | nil => simp [joinedFrom]
  | cons j js ih =>
    unfold joinedFrom
    rw [List.isChain_cons_cons]
    by_cases joins : i.Joins j
    · have less := length_joinedFrom_le (i.joinedTo j) js
      rw [if_pos joins, List.length_cons]
      simp only [joins, not_true_eq_false, false_and, iff_false]
      omega
    · rw [if_neg joins, List.length_cons, List.length_cons, Nat.add_right_cancel_iff, ih]
      exact (and_iff_right joins).symm

theorem length_joined_eq_iff (is : List Item) :
    (joined is).length = is.length ↔ is.IsChain fun i j => ¬ i.Joins j := by
  cases is with
  | nil => simp [joined]
  | cons i is => exact length_joinedFrom_eq_iff i is

theorem joinedFrom_of_isChain (apart : (i :: is).IsChain fun i j => ¬ i.Joins j) :
    joinedFrom i is = i :: is := by
  induction is generalizing i with
  | nil => rfl
  | cons j js ih =>
    obtain ⟨here, rest⟩ := List.isChain_cons_cons.mp apart
    rw [joinedFrom, if_neg here, ih rest]

theorem joined_of_isChain (apart : is.IsChain fun i j => ¬ i.Joins j) : joined is = is := by
  cases is with
  | nil => rfl
  | cons i is => exact joinedFrom_of_isChain apart

def primitive? : Item → Option String
  | prototype q => some q.primitive
  | definition _ | stmt _ => none

theorem primitive?_placeless (i : Item) : i.placeless.primitive? = i.primitive? := by
  cases i <;> rfl

theorem filterMap_joinedFrom (i : Item) (is : List Item) :
    (joinedFrom i is).filterMap primitive? = (i :: is).filterMap primitive? := by
  induction is generalizing i with
  | nil => rfl
  | cons j js ih =>
    unfold joinedFrom
    split
    case isTrue joins =>
      obtain ⟨ends, opens⟩ := joins
      cases i with
      | stmt s =>
        cases j with
        | stmt s' =>
          cases s' with
          | eval e => exact ih _
          | _ => cases opens
        | _ => cases opens
      | _ => cases ends
    case isFalse =>
      rw [List.filterMap_cons, List.filterMap_cons, ih]

theorem filterMap_joined (is : List Item) :
    (joined is).filterMap primitive? = is.filterMap primitive? := by
  cases is with
  | nil => rfl
  | cons i is => exact filterMap_joinedFrom i is

theorem joins_printed (i j : Item) : i.printed.Joins j.printed ↔ i.Joins j := by
  cases i <;> cases j <;> exact Iff.rfl

end Item

theorem Expr.written_followedBy {before : Expr} {cs : List Char}
    (front : Written cs before.Restored) : (e : Expr) → (∀ m ∈ e.marks, m.Spelt) →
    e.opensParen = true → Written (cs ++ '\n' :: e.text.toList) (before.followedBy e).Restored
  | .add left at_ right, spelt, _ => by
    obtain ⟨first, last⟩ := List.forall_mem_append.mp spelt
    have sum : Written (Expr.add left at_ right).text.toList _ :=
      Expr.written_add (left.written first) (right.written (List.forall_mem_cons.mp last).2)
    have some := sum.ne_nil fun enclosed => enclosed.restored.ne_nil
    refine front.append (.cons rfl) fun us ⟨before', same, called⟩ => .space rfl ?_ some
    refine sum.imp fun vs ⟨l, ws, r, e, split, opens, closes, same', inner⟩ => ?_
    refine ⟨.call before' l.start [e], ?_, ?_⟩
    · simp [Expr.followedBy, Expr.placeless, Expr.allPlaceless, same, same']
    · rw [split]
      exact .call called opens (.last inner) closes
  | .call callee at_ args, spelt, opens => by
    obtain ⟨first, last⟩ := List.forall_mem_append.mp spelt
    have called := Expr.written_followedBy front callee first opens
    have whole : Written _ (Expr.call (before.followedBy callee) at_ args).Restored :=
      Expr.written_call called (Expr.allWritten args (List.forall_mem_cons.mp last).2)
    rw [Expr.toList_text_call]
    rwa [List.append_assoc, List.cons_append] at whole

theorem Stmt.WrittenAs.followedBy {s : Stmt} {cs : List Char} {e : Expr}
    (written : s.WrittenAs cs) (ends : s.endsOpen = true) (spelt : ∀ m ∈ e.marks, m.Spelt)
    (opens : e.opensParen = true) :
    (s.followedBy e).WrittenAs (cs ++ '\n' :: e.text.toList) := by
  induction written with
  | block => cases ends
  | loop tested _ ih =>
    simp only [List.append_assoc, List.cons_append]
    exact .loop tested (ih ends)
  | ret returned =>
    simp only [List.append_assoc, List.cons_append]
    exact .ret (Expr.written_followedBy returned e spelt opens)
  | eval value => exact .eval (Expr.written_followedBy value e spelt opens)

theorem Prototype.written {q : Prototype} (spelt : ∀ m ∈ (Item.prototype q).marks, m.Spelt) :
    Written (Item.prototype q).text.toList (Item.prototype q).printed.Restored := by
  have split : (Item.prototype q).text.toList = q.header.text.toList ++
      ' ' :: '=' :: ' ' :: '"' :: ((escaped q.primitive).toList ++ '"' :: []) := by
    simp [Item.text, quoted, escaped]
  obtain ⟨front, back⟩ := List.forall_mem_append.mp spelt
  have inside := escaped_inside (back _ List.mem_cons_self)
  rw [split]
  refine (Header.written front).append (.cons rfl) fun us restored => ?_
  obtain ⟨header, same, heading⟩ := restored
  refine .blank (.sign rfl fun t assigns => .blank ?_ (List.cons_ne_nil _ _)) (List.cons_ne_nil _ _)
  refine .string inside fun p => .nil ?_
  refine ⟨.prototype ⟨header, escaped q.primitive⟩, ?_, fun next _ bare => ?_⟩
  · rw [Item.printed, Item.placeless, Item.placeless, Prototype.placeless, Prototype.placeless, same]
  · have named : (Token.mk .string (escaped q.primitive) p).kind = .string := rfl
    exact .prototype heading assigns named (.none bare)

namespace Item

def WrittenAs : Item → List Char → Prop
  | stmt s, cs => s.WrittenAs cs
  | i, cs => Written cs i.Restored

theorem WrittenAs.restored {i : Item} {cs : List Char} (written : i.WrittenAs cs) :
    Written cs i.Restored := by
  cases i with
  | definition d => exact written
  | prototype q => exact written
  | stmt s => exact Written.imp (Stmt.WrittenAs.restored written) fun _ => Stmt.Restored.item

theorem writtenAs (i : Item) (spelt : ∀ m ∈ i.marks, m.Spelt) :
    i.printed.WrittenAs i.text.toList := by
  cases i with
  | definition d => exact Definition.written spelt
  | prototype q => exact Prototype.written spelt
  | stmt s => exact s.writtenAs spelt

theorem WrittenAs.joinedTo {i j : Item} {cs : List Char} (written : i.WrittenAs cs)
    (joins : i.Joins j.printed) (spelt : ∀ m ∈ j.marks, m.Spelt) :
    (i.joinedTo j.printed).WrittenAs (cs ++ '\n' :: j.text.toList) := by
  obtain ⟨ends, opens⟩ := joins
  cases i with
  | definition d => cases ends
  | prototype q => cases ends
  | stmt s =>
    cases j with
    | definition d => cases opens
    | prototype q => cases opens
    | stmt s' =>
      cases s' with
      | eval e => exact Stmt.WrittenAs.followedBy written ends spelt opens
      | block | loop | ret => cases opens

end Item

theorem Segmented.head?_lexeme {p q : Position} {c : Char} {cs left : List Char} {t : Token}
    {ts : List Token} (segmented : Segmented p cs (t :: ts) q left) (head : cs.head? = some c)
    (solid : isSpace c = false ∧ c ≠ '/') : t.lexeme.head? = some c := by
  cases segmented with
  | token between place spelt =>
    cases between with
    | nil =>
      obtain ⟨d, lexeme, same⟩ := List.exists_cons_of_ne_nil spelt.lexeme_ne_nil
      rw [same] at head ⊢
      exact head
    | blank space =>
      cases head
      rw [solid.1] at space
      cases space
    | comment =>
      cases head
      exact absurd rfl solid.2

theorem Written.starts {c : Char} {cs : List Char} {holds : List Token → Prop}
    (written : Written cs holds) (head : cs.head? = some c)
    (solid : isWordChar c = true ∨ c = '\x7b') :
    Written cs fun ts => holds ts ∧ firstKind ts .eof ≠ .lparen := by
  have other (d : Char) (noWord : isWordChar d = false ∧ d ≠ '\x7b') : c ≠ d := by
    intro same
    subst same
    rcases solid with word | brace
    · rw [noWord.1] at word
      cases word
    · exact noWord.2 brace
  have noSpace : isSpace c = false := by
    simp [isSpace, other ' ' (by decide), other '\t' (by decide), other '\n' (by decide),
      other '\r' (by decide)]
  refine ⟨written.whole, fun p rest ends => ?_⟩
  obtain ⟨ts, segmented, here⟩ := written.reads p rest ends
  refine ⟨ts, segmented, here, ?_⟩
  intro paren
  cases ts with
  | nil => cases paren
  | cons t ts =>
    have spelt : t.Spelt := segmented.spelt _ List.mem_cons_self
    have first : t.lexeme.head? = some c :=
      segmented.head?_lexeme (by simp [head]) ⟨noSpace, other '/' (by decide)⟩
    obtain ⟨kind, text, start⟩ := t
    cases paren
    cases spelt
    have sign : "(".toList.head? = some '(' := by decide
    have same : some '(' = some c := sign.symm.trans first
    exact other '(' (by decide) (Option.some.inj same).symm

theorem Expr.head?_text : (e : Expr) → (∀ m ∈ e.marks, m.Spelt) → e.opensParen = false →
    ∃ c, e.text.toList.head? = some c ∧ isWordChar c = true
  | .int digits position, spelt, _ => by
    obtain ⟨some, all, _⟩ : (Token.mk .int digits position).Spelt := spelt _ List.mem_cons_self
    obtain ⟨c, cs, split⟩ := List.exists_cons_of_ne_nil some
    have digit := all c (split ▸ List.mem_cons_self)
    exact ⟨c, congrArg List.head? split, by simp [isWordChar, digit]⟩
  | .ident name, spelt, _ => by
    obtain ⟨⟨c, cs, split, _⟩, all, _⟩ : (Token.mk .ident name.text name.position).Spelt :=
      spelt _ List.mem_cons_self
    exact ⟨c, congrArg List.head? split, all c (split ▸ List.mem_cons_self)⟩
  | .call callee at_ args, spelt, closed => by
    obtain ⟨c, head, word⟩ := callee.head?_text (List.forall_mem_append.mp spelt).1 closed
    refine ⟨c, ?_, word⟩
    rw [Expr.toList_text_call, List.head?_append, head]
    rfl

theorem Item.head?_text (i : Item) (spelt : ∀ m ∈ i.marks, m.Spelt) (closed : i.opensParen = false) :
    ∃ c, i.text.toList.head? = some c ∧ (isWordChar c = true ∨ c = '\x7b') := by
  cases i with
  | definition d => exact ⟨'f', by simp [Item.text, Header.text], .inl rfl⟩
  | prototype q => exact ⟨'f', by simp [Item.text, Header.text], .inl rfl⟩
  | stmt s =>
    cases s with
    | block brace body => exact ⟨'\x7b', by simp [Item.text, Stmt.text, inBraces], .inr rfl⟩
    | loop at_ condition body => exact ⟨'w', by simp [Item.text, Stmt.text], .inl rfl⟩
    | ret at_ value => exact ⟨'r', by simp [Item.text, Stmt.text], .inl rfl⟩
    | eval e => exact (e.head?_text spelt closed).imp fun c first => ⟨first.1, .inl first.2⟩

theorem Item.Restored.ne_nil {i : Item} : ¬ i.Restored [] := by
  intro restored
  obtain ⟨i', _, entry⟩ := restored
  exact (entry .eof (fun _ => nofun) nofun).ne_nil rfl

theorem Item.opensParen_printed (i : Item) : i.printed.opensParen = i.opensParen := by
  cases i <;> rfl

def linesBehind (is : List Item) : List Char := is.flatMap fun i => '\n' :: i.text.toList

theorem Item.written_joinedFrom {i : Item} {cs : List Char} (here : i.WrittenAs cs)
    (is : List Item) (spelt : ∀ j ∈ is, ∀ m ∈ j.marks, m.Spelt) :
    Written (cs ++ linesBehind is) fun ts => ∃ items, items.map Item.placeless =
      (joinedFrom i (is.map printed)).map Item.placeless ∧ Sequence (Entry greedy) items ts .eof := by
  induction is generalizing i cs with
  | nil =>
    rw [show linesBehind [] = [] from rfl, List.append_nil]
    refine here.restored.imp fun ts ⟨i', same, entry⟩ => ⟨[i'], congrArg (fun i => [i]) same, ?_⟩
    have last := Sequence.cons (entry .eof (fun _ => nofun) nofun) (.nil .eof)
    rwa [List.append_nil] at last
  | cons j js ih =>
    obtain ⟨mine, rest⟩ := List.forall_mem_cons.mp spelt
    have split : linesBehind (j :: js) = '\n' :: (j.text.toList ++ linesBehind js) := by
      simp [linesBehind]
    rw [split, List.map_cons, joinedFrom]
    by_cases joins : i.Joins j.printed
    · rw [if_pos joins]
      have whole := ih (here.joinedTo joins mine) rest
      rwa [List.append_assoc, List.cons_append] at whole
    · rw [if_neg joins]
      have line := j.writtenAs mine
      have more := ih line rest
      have some := List.append_ne_nil_of_left_ne_nil
        (line.restored.ne_nil Item.Restored.ne_nil) (linesBehind js)
      have apart : Written (j.text.toList ++ linesBehind js) fun vs => (∃ items,
          items.map Item.placeless = (joinedFrom j.printed (js.map printed)).map Item.placeless ∧
            Sequence (Entry greedy) items vs .eof) ∧
          (i.endsOpen = true → firstKind vs .eof ≠ .lparen) := by
        cases opens : j.opensParen with
        | true =>
          refine more.imp fun vs derived => ⟨derived, fun ends => absurd ⟨ends, ?_⟩ joins⟩
          rw [j.opensParen_printed, opens]
        | false =>
          obtain ⟨c, head, solid⟩ := j.head?_text mine opens
          have first : (j.text.toList ++ linesBehind js).head? = Option.some c := by simp [head]
          exact (more.starts first solid).imp fun vs starts => ⟨starts.1, fun _ => starts.2⟩
      refine here.restored.append (.cons rfl) fun us ⟨i', same, entry⟩ => .space rfl ?_ some
      refine apart.imp fun vs ⟨⟨items, same', derived⟩, stop⟩ => ⟨i' :: items, ?_, ?_⟩
      · rw [List.map_cons, List.map_cons, same, same']
      · have follows := derived.follows (fun _ _ _ next entry => entry.starts next) rfl
        exact .cons (entry _ stop (ne_semicolon follows)) derived

namespace Program

variable {text : String} {p : Program}

theorem toList_text (i : Item) (is : List Item) :
    (Program.mk (i :: is)).text.toList = i.text.toList ++ linesBehind is := by
  induction is generalizing i with
  | nil => simp [Program.text, linesBehind]
  | cons j js ih =>
    have rest := ih j
    unfold Program.text at rest ⊢
    rw [List.map_cons, List.map_cons, toList_intercalate_cons, ← List.map_cons, rest]
    simp [linesBehind]

theorem written_joined (p : Program) (spelt : ∀ m ∈ p.marks, m.Spelt) :
    Written p.text.toList fun ts => ∃ items, items.map Item.placeless =
      (Item.joined (p.items.map Item.printed)).map Item.placeless ∧
        greedy.Derives ⟨items⟩ ts := by
  have all : ∀ i ∈ p.items, ∀ m ∈ i.marks, m.Spelt := fun i item m mark =>
    spelt m (List.mem_flatMap.mpr ⟨i, item, mark⟩)
  obtain ⟨items⟩ := p
  cases items with
  | nil => exact .nil ⟨[], rfl, .nil .eof⟩
  | cons i is =>
    obtain ⟨here, rest⟩ := List.forall_mem_cons.mp all
    rw [toList_text]
    exact Item.written_joinedFrom (i.writtenAs here) is rest

theorem map_primitive_prototypes (p : Program) {α : Type} (f : String → α) :
    (p.prototypes.map fun q => f q.primitive) =
      p.items.filterMap fun i => i.primitive?.map f := by
  rw [prototypes, List.map_filterMap]
  congr 1
  funext i
  cases i <;> rfl

theorem primitives_of_joined {items : List Item} (same : items.map Item.placeless =
      (Item.joined (p.items.map Item.printed)).map Item.placeless) :
    (Program.mk items).prototypes.map Prototype.primitive =
      p.prototypes.map fun q => escaped q.primitive := by
  have placeless (is : List Item) :
      (is.map Item.placeless).filterMap Item.primitive? = is.filterMap Item.primitive? := by
    rw [List.filterMap_map]
    exact congrArg (fun f => is.filterMap f) (funext Item.primitive?_placeless)
  have printed : (p.items.map Item.printed).filterMap Item.primitive? =
      p.items.filterMap fun i => i.primitive?.map escaped := by
    rw [List.filterMap_map]
    congr 1
    funext i
    cases i <;> rfl
  calc (Program.mk items).prototypes.map Prototype.primitive
      = items.filterMap fun i => i.primitive?.map id := map_primitive_prototypes _ id
    _ = (items.map Item.placeless).filterMap Item.primitive? := by simp [placeless]
    _ = (p.items.map Item.printed).filterMap Item.primitive? := by
      rw [same, placeless, Item.filterMap_joined]
    _ = p.prototypes.map fun q => escaped q.primitive := by
      rw [printed, p.map_primitive_prototypes]

theorem map_printed (plain : ∀ q ∈ p.prototypes, q.IsPlain) :
    p.items.map Item.printed = p.items := by
  have each : ∀ i ∈ p.items, i.printed = id i := by
    intro i item
    cases i with
    | definition d => rfl
    | stmt s => rfl
    | prototype q =>
      have member : q ∈ p.prototypes := List.mem_filterMap.mpr ⟨_, item, rfl⟩
      rw [Item.printed, q.isPlain_iff.mp (plain q member)]
      rfl
  rw [List.map_congr_left each, List.map_id]

theorem apart_iff : p.Apart ↔ (p.items.map Item.printed).IsChain fun i j => ¬ i.Joins j := by
  rw [List.isChain_map]
  simp only [Item.joins_printed]
  exact Iff.rfl

/-- Printing a program and reading its text gives the joined items, with the primitives as they are
printed. -/
theorem text_reread (read : parse text = .ok p) :
    (∃ e, parse p.text = .error (.malformed e []) ∧ e.cause.isLimit = true) ∨
      ∃ q, parse p.text = .ok q ∧
        q.items.map Item.placeless =
          (Item.joined (p.items.map Item.printed)).map Item.placeless ∧
        (q.items.length = p.items.length ↔ p.Apart) ∧
        (q.prototypes.map Prototype.primitive = p.prototypes.map Prototype.primitive ↔
          ∀ proto ∈ p.prototypes, proto.IsPlain) ∧
        (p.Apart → (∀ proto ∈ p.prototypes, proto.IsPlain) →
          q.items.map Item.placeless = p.items.map Item.placeless) := by
  obtain ⟨ts, ending, lexed, items, same, derived⟩ :=
    tokenize_of_written (p.written_joined (spelt_of_parse read))
  rcases parse_of_takes lexed (Item.parseAll_takes_greedy derived) with again | ⟨_, limit⟩
  · refine .inr ⟨⟨items⟩, again, same, ?_, ?_, ?_⟩
    · have lengths := congrArg List.length same
      rw [List.length_map, List.length_map] at lengths
      rw [lengths, apart_iff, ← Item.length_joined_eq_iff, List.length_map]
    · rw [primitives_of_joined same, List.map_inj_left]
      simp only [Prototype.isPlain_iff]
    · intro apart plain
      rw [apart_iff] at apart
      rw [same, Item.joined_of_isChain apart, map_printed plain]
  · exact .inl limit

theorem text_reread_sample : ∃ p q, parse
    "func print(x: int): int = \"print_int\"\nprint(1) while (print) \x7b \x7d (1 + 2)(3)" = .ok p ∧
      parse p.text = .ok q ∧ p.items.length = 4 ∧ p.Apart ∧
      (∀ proto ∈ p.prototypes, proto.IsPlain) ∧
      q.items.map Item.placeless = p.items.map Item.placeless := by
  obtain ⟨p, read, count, again⟩ : ∃ p, parse
      "func print(x: int): int = \"print_int\"\nprint(1) while (print) \x7b \x7d (1 + 2)(3)" = .ok p ∧
        p.items.length = 4 ∧ ((parse p.text).toOption.any fun q =>
          decide (q.items.length = p.items.length ∧
            q.prototypes.map Prototype.primitive = p.prototypes.map Prototype.primitive)) = true :=
    exists_of_evaluation (by decide +kernel)
  obtain ⟨q, reread, length, primitives⟩ := exists_of_evaluation again
  rcases text_reread read with ⟨e, limit, _⟩ | ⟨q', found, _, apart, plain, same⟩
  · cases reread.symm.trans limit
  · cases reread.symm.trans found
    exact ⟨p, q, read, reread, count, apart.mp length, plain.mp primitives,
      same (apart.mp length) (plain.mp primitives)⟩

theorem text_reread_differs : ∃ p q,
    parse "func f(): int = \"a\\b\"\nf; (1 + 2)" = .ok p ∧ parse p.text = .ok q ∧
      p.items.length = 3 ∧ q.items.length = 2 ∧
      p.prototypes.map Prototype.primitive = ["a\\b"] ∧
      q.prototypes.map Prototype.primitive = ["a\\\\b"] := by
  obtain ⟨p, read, again⟩ : ∃ p, parse "func f(): int = \"a\\b\"\nf; (1 + 2)" = .ok p ∧
      ((parse p.text).toOption.any fun q => decide (p.items.length = 3 ∧ q.items.length = 2 ∧
        p.prototypes.map Prototype.primitive = ["a\\b"] ∧
        q.prototypes.map Prototype.primitive = ["a\\\\b"])) = true :=
    exists_of_evaluation (by decide +kernel)
  obtain ⟨q, reread, differ⟩ := exists_of_evaluation again
  exact ⟨p, q, read, reread, differ⟩

end Program

end Tally
