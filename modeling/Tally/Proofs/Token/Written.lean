import Tally.Proofs.Token.Unique

namespace Tally

/-- A text without NUL characters that is read as tokens of which `holds` is said. -/
structure Written (cs : List Char) (holds : List Token → Prop) : Prop where
  whole : '\x00' ∉ cs
  reads : ∀ p rest, EndsWord rest →
    ∃ ts, Segmented p (cs ++ rest) ts (p.after cs) rest ∧ holds ts

theorem EndsWord.cons {c : Char} {cs : List Char} (other : isWordChar c = false) :
    EndsWord (c :: cs) := by
  rintro _ ⟨⟩
  exact other

namespace Segmented

variable {p q r : Position} {cs left last : List Char} {ts us : List Token}

theorem append (first : Segmented p cs ts q left) (second : Segmented q left us r last) :
    Segmented p cs (ts ++ us) r last := by
  induction first with
  | done => exact second
  | token between place spelt maximal more ih =>
    exact .token between place spelt maximal (ih second)

theorem eq_of_nil (segmented : Segmented p cs [] q left) : cs = left := by
  cases segmented
  rfl

theorem blank {c : Char} (space : isSpace c = true) (some : ts ≠ [])
    (segmented : Segmented (p.next c) cs ts q left) : Segmented p (c :: cs) ts q left := by
  cases segmented with
  | done => exact absurd rfl some
  | token between place spelt maximal more =>
    exact .token (.blank space between) place spelt maximal more

end Segmented

theorem Token.Spelt.no_null {t : Token} (spelt : t.Spelt) (bare : t.kind ≠ .string) :
    '\x00' ∉ t.text.toList := by
  obtain ⟨kind, text, start⟩ := t
  cases kind with
  | eof => exact spelt.elim
  | string => exact absurd rfl bare
  | int => exact fun member => absurd (spelt.2.1 _ member) (by decide)
  | ident => exact fun member => absurd (spelt.2.1 _ member) (by decide)
  | _ =>
    cases spelt
    simp

namespace Written

variable {cs ds : List Char} {holds more : List Token → Prop}

theorem nil (done : holds []) : Written [] holds :=
  ⟨List.not_mem_nil, fun p rest _ => ⟨[], .done p rest, done⟩⟩

theorem imp (written : Written cs more) (implies : ∀ ts, more ts → holds ts) : Written cs holds :=
  ⟨written.whole, fun p rest ends =>
    (written.reads p rest ends).imp fun _ reads => ⟨reads.1, implies _ reads.2⟩⟩

theorem ne_nil (written : Written cs holds) (some : ¬ holds []) : cs ≠ [] := by
  rintro rfl
  obtain ⟨ts, segmented, here⟩ := written.reads .start [] nofun
  cases ts with
  | nil => exact some here
  | cons t ts =>
    have inside := segmented.increasing.2.1 t List.mem_cons_self
    exact Nat.not_lt_of_le inside.1 inside.2

theorem append (left : Written cs more) (apart : EndsWord ds)
    (right : ∀ us, more us → Written ds fun vs => holds (us ++ vs)) : Written (cs ++ ds) holds := by
  constructor
  · obtain ⟨us, _, here⟩ := left.reads .start [] nofun
    exact List.not_mem_append left.whole (right us here).whole
  · intro p rest ends
    obtain ⟨us, first, here⟩ := left.reads p (ds ++ rest) (apart.append ends)
    obtain ⟨vs, second, all⟩ := (right us here).reads (p.after cs) rest ends
    rw [← Position.after_append] at second
    rw [List.append_assoc]
    exact ⟨us ++ vs, first.append second, all⟩

theorem space {c : Char} (space : isSpace c = true) (written : Written cs holds) (some : cs ≠ []) :
    Written (c :: cs) holds := by
  have other : '\x00' ≠ c := by
    intro null
    subst null
    cases space
  constructor
  · exact List.not_mem_cons_of_ne_of_not_mem other written.whole
  · intro p rest ends
    obtain ⟨ts, segmented, here⟩ := written.reads (p.next c) rest ends
    refine ⟨ts, segmented.blank space fun none => ?_, here⟩
    subst none
    exact some (List.append_left_eq_self.mp segmented.eq_of_nil)

theorem blank (written : Written cs holds) (some : cs ≠ []) : Written (' ' :: cs) holds :=
  written.space rfl some

theorem token (t : Token) (spelt : t.Spelt) (bare : t.kind ≠ .string)
    (apart : t.kind.isWordLike = true → EndsWord ds)
    (more : ∀ p, Written ds fun us => holds (⟨t.kind, t.text, p⟩ :: us)) :
    Written (t.text.toList ++ ds) holds := by
  constructor
  · exact List.not_mem_append (spelt.no_null bare) (more .start).whole
  · intro p rest ends
    obtain ⟨us, segmented, here⟩ := (more p).reads (p.after t.text.toList) rest ends
    have lexeme : (Token.mk t.kind t.text p).lexeme = t.text.toList := Cursor.lexeme_of_ne bare
    have first : Segmented p ([] ++ (Token.mk t.kind t.text p).lexeme ++ (ds ++ rest)) _ _ _ :=
      .token .nil rfl spelt (fun wordLike => (apart wordLike).append ends)
        (by rw [lexeme]; exact segmented)
    rw [lexeme, List.nil_append, ← List.append_assoc, ← Position.after_append] at first
    exact ⟨_, first, here⟩

theorem string {text : String} (inside : ∀ c ∈ text.toList, c ≠ '"' ∧ c ≠ '\n' ∧ c ≠ '\x00')
    (more : ∀ p, Written ds fun us => holds (⟨.string, text, p⟩ :: us)) :
    Written ('"' :: (text.toList ++ '"' :: ds)) holds := by
  have split : '"' :: (text.toList ++ '"' :: ds) = '"' :: (text.toList ++ ['"']) ++ ds := by simp
  rw [split]
  constructor
  · have quotes : '\x00' ∉ '"' :: (text.toList ++ ['"']) := by
      simpa using fun member => (inside _ member).2.2 rfl
    exact List.not_mem_append quotes (more .start).whole
  · intro p rest ends
    obtain ⟨us, segmented, here⟩ := (more p).reads (p.after ('"' :: (text.toList ++ ['"']))) rest ends
    have spelt : (Token.mk .string text p).Spelt := fun c member =>
      ⟨(inside c member).1, (inside c member).2.1⟩
    have first : Segmented p ([] ++ (Token.mk .string text p).lexeme ++ (ds ++ rest)) _ _ _ :=
      .token .nil rfl spelt nofun segmented
    rw [List.append_assoc, Position.after_append]
    exact ⟨_, first, here⟩

theorem sign {c : Char} {kind : Token.Kind} (found : Token.Kind.ofChar? c = some kind)
    (more : ∀ t : Token, t.kind = kind → Written ds fun us => holds (t :: us)) :
    Written (c :: ds) holds := by
  have mark : kind.isWordLike = false ∧ kind ≠ .string ∧ kind.text.toList = [c] ∧
      ∀ p, (Token.mk kind kind.text p).Spelt := by
    unfold Token.Kind.ofChar? at found
    split at found <;> cases found <;> exact ⟨rfl, nofun, by decide, fun _ => rfl⟩
  obtain ⟨noWord, bare, text, spelt⟩ := mark
  rw [show c :: ds = kind.text.toList ++ ds by rw [text]; rfl]
  exact .token ⟨kind, kind.text, .start⟩ (spelt .start) bare
    (fun wordLike => nomatch noWord.symm.trans wordLike) fun p => more _ rfl

end Written

theorem tokenize_of_written {text : String} {holds : List Token → Prop}
    (written : Written text.toList holds) :
    ∃ ts ending, tokenize text = .ok (ts ++ [⟨.eof, "", ending⟩]) ∧ holds ts := by
  obtain ⟨ts, segmented, here⟩ := written.reads .start [] nofun
  rw [List.append_nil] at segmented
  exact ⟨ts, _, tokenize_of_segmented written.whole segmented .nil, here⟩

end Tally
