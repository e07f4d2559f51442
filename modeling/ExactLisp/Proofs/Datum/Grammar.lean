import ExactLisp.Datum.Read

/-!
# The grammar of data

What a text denotes, said without a reader: a form is a word, a closed string, a quote
mark with a form after it, forms between round brackets, or literals between square
ones. White space only separates lexemes, so it is dropped first (`Lexeme.code`).

The reader works with a stack and one lexeme at a time. That it accepts exactly what is
derived here, and gives exactly the datum that is derived, takes two arguments:

* a derived form, read from any state that takes forms, is delivered there
  (`Derives.readAll_append`), provided it does not nest too deeply;
* at any time, what has been read is derived as far as the open forms go
  (`Progress.Read`), so once no form is open all of it is.

The limit counts levels: a form that the reader meets with `n` forms open around it may
have `limit - n` levels of its own.
-/

namespace ExactLisp

/-- The lexemes of a text that are not white space. -/
def Lexeme.code (text : String) : List Lexeme :=
  (scan .engine text).filter fun x => !x.isSpace

namespace Datum

mutual

/-- Some lexemes are a form, which denotes a datum. -/
inductive Derives : List Lexeme → Datum → Prop
  | word (w : List Char) : Derives [.word w] (ofWord w)
  | str (raw : List Char) : Derives [.str raw true] (.literal (.str (String.ofList (unescape raw))))
  | quoted {xs : List Lexeme} {d : Datum} : Derives xs d → Derives (.quote :: xs) (quoting d)
  | list {xs : List Lexeme} {ds : List Datum} : DerivesAll xs ds →
      Derives (.opening .round :: (xs ++ [.closing .round])) (.list ds)
  | array {xs : List Lexeme} {ls : List Literal} : DerivesElements xs ls →
      Derives (.opening .square :: (xs ++ [.closing .square])) (.array ls)

/-- Some lexemes are forms in a row. -/
inductive DerivesAll : List Lexeme → List Datum → Prop
  | nil : DerivesAll [] []
  | cons {xs ys : List Lexeme} {d : Datum} {ds : List Datum} : Derives xs d → DerivesAll ys ds →
      DerivesAll (xs ++ ys) (d :: ds)

/-- Some lexemes are elements of an array: strings, and words that are not symbols. -/
inductive DerivesElements : List Lexeme → List Literal → Prop
  | nil : DerivesElements [] []
  | str (raw : List Char) {xs : List Lexeme} {ls : List Literal} : DerivesElements xs ls →
      DerivesElements (.str raw true :: xs) (.str (String.ofList (unescape raw)) :: ls)
  | word {w : List Char} {l : Literal} {xs : List Lexeme} {ls : List Literal} :
      ofWord w = .literal l → DerivesElements xs ls → DerivesElements (.word w :: xs) (l :: ls)

end

theorem Derives.all {xs : List Lexeme} {d : Datum} (h : Derives xs d) : DerivesAll xs [d] := by
  have hs := DerivesAll.cons h .nil
  rwa [List.append_nil] at hs

theorem DerivesAll.append {xs ys : List Lexeme} {ds es : List Datum} (hx : DerivesAll xs ds)
    (hy : DerivesAll ys es) : DerivesAll (xs ++ ys) (ds ++ es) := by
  match hx with
  | .nil => exact hy
  | .cons h hs =>
    rw [List.append_assoc]
    exact .cons h (hs.append hy)

theorem DerivesElements.append {xs ys : List Lexeme} {ls ms : List Literal}
    (hx : DerivesElements xs ls) (hy : DerivesElements ys ms) :
    DerivesElements (xs ++ ys) (ls ++ ms) := by
  match hx with
  | .nil => exact hy
  | .str raw hs => exact .str raw (hs.append hy)
  | .word hw hs => exact .word hw (hs.append hy)

/-! ## Depth -/

theorem one_le_depth (d : Datum) : 1 ≤ d.depth := by
  cases d <;> simp [depth]

theorem depth_quoting (d : Datum) : (quoting d).depth = d.depth + 1 := by
  have h := one_le_depth d
  simp only [quoting, depth, depths]
  omega

theorem depths_le_iff {ds : List Datum} {n : Nat} : depths ds ≤ n ↔ ∀ d ∈ ds, d.depth ≤ n := by
  induction ds with
  | nil => simp [depths]
  | cons d rest ih => rw [depths, Nat.max_le, ih, List.forall_mem_cons]

theorem depth_ofWord (w : List Char) : (ofWord w).depth = 1 := by
  unfold ofWord
  repeat' split
  all_goals rfl

end Datum

end ExactLisp
