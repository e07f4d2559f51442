import ExactLisp.Lexeme

/-!
# Nothing is lost in scanning

A lexeme that is still pending has taken some characters already. Reading one
character adds exactly that character to what has been emitted and taken so far
(`spelling_step`), so the spellings of all lexemes of a text are the text
(`spelling_scan`). Blanks, bodies of strings and comments, and a string that never
ends are all included.
-/

namespace ExactLisp.Lexeme

/-- The characters that a pending lexeme has taken. -/
def Pending.spelling : Pending → List Char
  | idle => []
  | word reversed => reversed.reverse
  | str reversed _ => quotationMark :: reversed.reverse
  | comment reversed => commentMark :: reversed.reverse

theorem Pending.spelling_flush (p : Pending) :
    p.flush.flatMap Lexeme.spelling = p.spelling := by
  cases p <;> simp [flush, Pending.spelling, Lexeme.spelling]

theorem spelling_start (mode : Mode) (c : Char) :
    (start mode c).1.flatMap spelling ++ (start mode c).2.spelling = [c] := by
  unfold start
  repeat' split
  all_goals simp_all [spelling, Pending.spelling, Bracket.openChar, Bracket.closeChar]

theorem spelling_endWith (mode : Mode) (done : Lexeme) (c : Char) :
    (endWith mode done c).1.flatMap spelling ++ (endWith mode done c).2.spelling =
      done.spelling ++ [c] := by
  simp [endWith, ← spelling_start mode c]

/-- Reading a character adds it to what has been taken, and nothing else. -/
theorem spelling_step (mode : Mode) (p : Pending) (c : Char) :
    (step mode p c).1.flatMap spelling ++ (step mode p c).2.spelling = p.spelling ++ [c] := by
  fun_cases step mode p c with
  | case1 => exact spelling_start mode c
  | case2 | case4 | case6 | case8 => simp [Pending.spelling]
  | case3 => rw [spelling_endWith]; rfl
  | case5 => simp [spelling, Pending.spelling]
  | case7 => rw [spelling_endWith]; rfl

theorem spelling_scanFrom (mode : Mode) (p : Pending) (cs : List Char) :
    (scanFrom mode p cs).flatMap spelling = p.spelling ++ cs := by
  induction cs generalizing p with
  | nil => simp [scanFrom, Pending.spelling_flush]
  | cons c rest ih =>
    rw [scanFrom, List.flatMap_append, ih, ← List.append_assoc, spelling_step]
    simp

/-- The spellings of the lexemes of a text, put together, are the text. -/
theorem spelling_scan (mode : Mode) (text : String) :
    (scan mode text).flatMap spelling = text.toList := by
  simp [scan, spelling_scanFrom, Pending.spelling]

end ExactLisp.Lexeme
