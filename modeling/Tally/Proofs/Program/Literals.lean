import Tally.Proofs.Grammar.Spelt

namespace Tally

mutual

def Expr.LiteralsFit : Expr → Prop
  | .int digits _ => Expr.literalValue digits ≤ maxInt
  | .ident _ => True
  | .add left _ right => left.LiteralsFit ∧ right.LiteralsFit
  | .call callee _ args => callee.LiteralsFit ∧ Expr.AllLiteralsFit args

def Expr.AllLiteralsFit : List Expr → Prop
  | [] => True
  | e :: es => e.LiteralsFit ∧ Expr.AllLiteralsFit es

end

mutual

def Stmt.LiteralsFit : Stmt → Prop
  | .block _ body => Stmt.AllLiteralsFit body
  | .loop _ condition body => condition.LiteralsFit ∧ body.LiteralsFit
  | .ret _ value => value.LiteralsFit
  | .eval e => e.LiteralsFit

def Stmt.AllLiteralsFit : List Stmt → Prop
  | [] => True
  | s :: ss => s.LiteralsFit ∧ Stmt.AllLiteralsFit ss

end

def Item.LiteralsFit : Item → Prop
  | .definition d => d.block.LiteralsFit
  | .prototype _ => True
  | .stmt s => s.LiteralsFit

def Program.LiteralsFit (p : Program) : Prop := ∀ item ∈ p.items, item.LiteralsFit

theorem Stmt.allLiteralsFit_of_forall {ss : List Stmt} (all : ∀ s ∈ ss, s.LiteralsFit) :
    Stmt.AllLiteralsFit ss := by
  induction ss with
  | nil => trivial
  | cons s ss ih =>
    exact ⟨all s List.mem_cons_self, ih fun s' member => all s' (List.mem_cons_of_mem _ member)⟩

mutual

theorem Expr.literalsFit_of_spelt : (e : Expr) → (∀ m ∈ e.marks, m.Spelt) → e.LiteralsFit
  | .int digits position, spelt => by
    have number : (Token.mk .int digits position).Spelt := spelt _ List.mem_cons_self
    exact number.2.2
  | .ident _, _ => trivial
  | .add left _ right, spelt => by
    obtain ⟨front, back⟩ := List.forall_mem_append.mp spelt
    exact ⟨left.literalsFit_of_spelt front,
      right.literalsFit_of_spelt (List.forall_mem_cons.mp back).2⟩
  | .call callee _ args, spelt => by
    obtain ⟨front, back⟩ := List.forall_mem_append.mp spelt
    exact ⟨callee.literalsFit_of_spelt front,
      Expr.allLiteralsFit_of_spelt args (List.forall_mem_cons.mp back).2⟩

theorem Expr.allLiteralsFit_of_spelt : (es : List Expr) → (∀ m ∈ Expr.allMarks es, m.Spelt) →
    Expr.AllLiteralsFit es
  | [], _ => trivial
  | e :: es, spelt => by
    obtain ⟨front, back⟩ := List.forall_mem_append.mp spelt
    exact ⟨e.literalsFit_of_spelt front, Expr.allLiteralsFit_of_spelt es back⟩

end

mutual

theorem Stmt.literalsFit_of_spelt : (s : Stmt) → (∀ m ∈ s.marks, m.Spelt) → s.LiteralsFit
  | .block _ body, spelt => Stmt.allLiteralsFit_of_spelt body (List.forall_mem_cons.mp spelt).2
  | .loop _ condition body, spelt => by
    obtain ⟨front, back⟩ := List.forall_mem_append.mp (List.forall_mem_cons.mp spelt).2
    exact ⟨condition.literalsFit_of_spelt front, body.literalsFit_of_spelt back⟩
  | .ret _ value, spelt => value.literalsFit_of_spelt (List.forall_mem_cons.mp spelt).2
  | .eval e, spelt => e.literalsFit_of_spelt spelt

theorem Stmt.allLiteralsFit_of_spelt : (ss : List Stmt) → (∀ m ∈ Stmt.allMarks ss, m.Spelt) →
    Stmt.AllLiteralsFit ss
  | [], _ => trivial
  | s :: ss, spelt => by
    obtain ⟨front, back⟩ := List.forall_mem_append.mp spelt
    exact ⟨s.literalsFit_of_spelt front, Stmt.allLiteralsFit_of_spelt ss back⟩

end

theorem Item.literalsFit_of_spelt {i : Item} (spelt : ∀ m ∈ i.marks, m.Spelt) : i.LiteralsFit := by
  cases i with
  | definition d => exact d.block.literalsFit_of_spelt (List.forall_mem_append.mp spelt).2
  | prototype p => trivial
  | stmt s => exact s.literalsFit_of_spelt spelt

theorem Program.literalsFit_of_parse {text : String} {p : Program} (read : parse text = .ok p) :
    p.LiteralsFit := fun i item => Item.literalsFit_of_spelt fun m mark =>
  spelt_of_parse read m (List.mem_flatMap.mpr ⟨i, item, mark⟩)

end Tally
