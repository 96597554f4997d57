import Tally.Program.Marks
import Tally.Proofs.Grammar.Resolved

namespace Tally

def Token.mark? (t : Token) : Option Mark :=
  match t.kind with
  | .ident => some (.name t.text t.start)
  | .int => some (.number t.text t.start)
  | .string => some (.primitive t.text)
  | .assign | .rparen | .rbrace | .comma | .semicolon | .colon | .eof => none
  | kind => some (.sign kind t.start)

def Token.Kind.isSilent : Kind → Bool
  | assign | lparen | rparen | rbrace | comma | semicolon | colon => true
  | _ => false

/-- Marks of the tokens of a text, in their order, where silent tokens may be left out. -/
inductive Recorded : List Mark → List Token → Prop where
  | nil : Recorded [] []
  | kept {m : Mark} {t : Token} {ms : List Mark} {ts : List Token} (shown : t.mark? = some m)
    (more : Recorded ms ts) : Recorded (m :: ms) (t :: ts)
  | dropped {t : Token} {ms : List Mark} {ts : List Token} (silent : t.kind.isSilent = true)
    (more : Recorded ms ts) : Recorded ms (t :: ts)

theorem Token.mark?_eq {t : Token} {kind : Kind} (same : t.kind = kind) :
    t.mark? = (⟨kind, t.text, t.start⟩ : Token).mark? := by
  rw [← same]

namespace Recorded

variable {m : Mark} {t : Token} {ms ns : List Mark} {ts us : List Token}

theorem single (shown : t.mark? = some m) : Recorded [m] [t] := .kept shown .nil

theorem append (left : Recorded ms ts) (right : Recorded ns us) : Recorded (ms ++ ns) (ts ++ us) := by
  induction left with
  | nil => exact right
  | kept shown _ ih => exact .kept shown ih
  | dropped silent _ ih => exact .dropped silent ih

theorem closed (marks : Recorded ms ts) (silent : t.kind.isSilent = true) :
    Recorded ms (ts ++ [t]) := by
  have last : Recorded [] [t] := .dropped silent .nil
  simpa using marks.append last

theorem ne_eof (recorded : Recorded ms ts) : ∀ t ∈ ts, t.kind ≠ .eof := by
  induction recorded with
  | nil => nofun
  | kept shown _ ih =>
    refine List.forall_mem_cons.mpr ⟨fun last => ?_, ih⟩
    unfold Token.mark? at shown
    rw [last] at shown
    cases shown
  | dropped silent _ ih =>
    refine List.forall_mem_cons.mpr ⟨fun last => ?_, ih⟩
    rw [last] at silent
    cases silent

end Recorded

namespace Grammar

variable {trailing : Prop} {g : Grammar}

mutual

theorem Operand.recorded {e : Expr} {us : List Token} :
    Operand trailing e us → Recorded e.marks us
  | .ident kind => .single (Token.mark?_eq kind)
  | .int kind => .single (Token.mark?_eq kind)
  | .group opens inner closes => .dropped (congrArg _ opens) (inner.recorded.closed (congrArg _ closes))
  | .call called opens list closes => by
    have inside := (commaList_recorded list).closed (congrArg _ closes)
    exact called.recorded.append (.kept (Token.mark?_eq opens) inside)

theorem Sum.recorded {e : Expr} {us : List Token} : Sum trailing e us → Recorded e.marks us
  | .operand only => only.recorded
  | .add first plus last => first.recorded.append (.kept (Token.mark?_eq plus) last.recorded)

theorem commaList_recorded {es : List Expr} {us : List Token} :
    CommaList trailing (Sum trailing) es us → Recorded (Expr.allMarks es) us
  | .nil => .nil
  | .last item => by
    simpa [Expr.allMarks] using item.recorded
  | .cons item comma more _ => item.recorded.append (.dropped (congrArg _ comma) (commaList_recorded more))

end

theorem Closing.recorded {ms : List Mark} {us ws : List Token} {next : Token.Kind}
    (closing : Closing g ws next) (marks : Recorded ms us) : Recorded ms (us ++ ws) := by
  cases closing with
  | none stop => rwa [List.append_nil]
  | semicolon kind => exact marks.closed (congrArg _ kind)

theorem inherited_recorded : Inherited g (fun s us _ => Recorded s.marks us)
    (fun s us _ => Recorded s.marks us) (fun ss us _ => Recorded (Stmt.allMarks ss) us) where
  block opens closes inner := .kept (Token.mark?_eq opens) (inner.closed (congrArg _ closes))
  loop word opens tested closes inner := .kept (Token.mark?_eq word)
    (.dropped (congrArg _ opens) (tested.recorded.append (.dropped (congrArg _ closes) inner)))
  ret word returned _ := .kept (Token.mark?_eq word) returned.recorded
  eval value _ := value.recorded
  ended closing inner := closing.recorded inner
  nil _ := .nil
  cons _ first rest := first.append rest

theorem Parameter.recorded {p : Param} {us : List Token} (derived : Parameter p us) :
    Recorded p.marks us := by
  cases derived with
  | typed named colons types =>
    exact .kept (Token.mark?_eq named) (.dropped (congrArg _ colons) (.single (Token.mark?_eq types)))

theorem params_recorded {ps : List Param} {us : List Token}
    (list : CommaList trailing Parameter ps us) : Recorded (ps.flatMap Param.marks) us := by
  induction list with
  | nil => exact .nil
  | last item => simpa using item.recorded
  | cons item comma more _ ih => exact item.recorded.append (.dropped (congrArg _ comma) ih)

theorem Heading.recorded {h : Header} {us : List Token} (heading : Heading trailing h us) :
    Recorded h.marks us := by
  cases heading with
  | typed word named opens list closes colons types =>
    have result := Recorded.dropped (congrArg _ colons) (.single (Token.mark?_eq types))
    have rest := (params_recorded list).append (.dropped (congrArg _ closes) result)
    exact .kept (Token.mark?_eq word) (.kept (Token.mark?_eq named) (.dropped (congrArg _ opens) rest))

theorem Entry.recorded {i : Item} {us : List Token} {next : Token.Kind}
    (entry : Entry g i us next) : Recorded i.marks us := by
  cases entry with
  | prototype heading assigns named closing =>
    have primitive := closing.recorded (.single (Token.mark?_eq named))
    exact heading.recorded.append (.dropped (congrArg _ assigns) primitive)
  | definition heading body closing =>
    exact heading.recorded.append (closing.recorded (inherited_recorded.of_clause body))
  | stmt whole => exact inherited_recorded.of_statement whole

theorem Entry.sequence_recorded {items : List Item} {us : List Token} {next : Token.Kind}
    (derived : Sequence (Entry g) items us next) : Recorded (items.flatMap Item.marks) us := by
  induction derived with
  | nil => exact .nil
  | cons first _ ih => exact first.recorded.append ih

theorem Derives.recorded {p : Program} {ts : List Token} (derived : g.Derives p ts) :
    Recorded p.marks ts := Entry.sequence_recorded derived

end Grammar

end Tally
