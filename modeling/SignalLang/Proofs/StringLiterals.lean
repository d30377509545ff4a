import SignalLang.Proofs.InternedNames

/-!
# String literals

A text can be put into a program as a literal: its token is the text in quotes, with quotes,
backslashes, newlines and tabs escaped.  Translation reads tokens leniently, but it finds every one
of these escapes where it was written, so that the program holds the text that was put in.

* `Tree.Expr.string` : the literal that stands for a text.
* `Lowering.primary_string` : what becomes of a token that can be read.
* `Tree.Expr.string_reads_back` : **the token of a text decodes to the text, and so does the name in
  the code of its literal.**
-/

namespace SignalLang

/-- The literal that stands for a text. -/
def Tree.Expr.string (text : String) : Tree.Expr := .node (.string (Quoted.encode text)) [] .dummy

/-- A token that can be read becomes one expression, with the name of what is read. -/
theorem Lowering.primary_string {token text : String} (h : Quoted.decode token = some text)
    (span : Span) (s : Lowering) :
    primary (.string token) span s = addExpr (.string (name text s).1) span (name text s).2 := by
  rw [primary, h]
  rfl

/-- **The token of a text is accepted and decodes to the text.**  Its literal is translated without
an error into one expression, whose name stands for the text then and after any later names. -/
theorem Tree.Expr.string_reads_back (text : String) (s : Lowering) :
    Quoted.decode (Quoted.encode text) = some text ∧
    ∃ id s' n, Lowering.expr (.string text) s = (id, s') ∧ s'.errors = s.errors ∧
      s'.arena.expr id = ⟨.string n, .dummy⟩ ∧
      ∀ later, (s'.interner.internAll later).text? n = some text := by
  have hdecode := Quoted.decode_encode text
  have hexpr : Lowering.expr (.string text) s = _ := Lowering.primary_string hdecode .dummy s
  refine ⟨hdecode, _, _, (Lowering.name text s).1, hexpr, rfl, ?_, fun later => ?_⟩
  · exact (Arena.expr_addExpr _ _ _).trans (if_pos rfl)
  · exact Interner.text?_of_find? (Interner.find?_internAll (Interner.find?_intern_self _ _) later)

end SignalLang
