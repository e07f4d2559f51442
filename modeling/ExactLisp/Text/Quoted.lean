import ExactLisp.Text.Printable

/-!
# Quoted strings

Between its quotes a string spells every character as itself, except that a
backslash stands for the character after it. `escape` writes that spelling,
putting a backslash only where one is needed, and `unescape` reads it back.

`inspected` is the spelling used when a value is shown for inspection: it also
makes line breaks, tabs and all other unprintable characters visible.
-/

namespace ExactLisp

/-- The double quotation mark that opens and closes a string. -/
def quotationMark : Char := '\x22'

/-- The escape character: it stands for whatever follows it. -/
def backslash : Char := '\x5c'

/-- Spell a string's characters so that they can stand between quotes. -/
def escape : List Char → List Char
  | [] => []
  | c :: rest =>
    if c = quotationMark ∨ c = backslash then backslash :: c :: escape rest
    else c :: escape rest

/--
The characters that a spelling stands for. A backslash with nothing after it
stands for nothing; it occurs only at the end of a text that stops inside a
string.
-/
def unescape : List Char → List Char
  | [] => []
  | [c] => if c = backslash then [] else [c]
  | c :: d :: rest => if c = backslash then d :: unescape rest else c :: unescape (d :: rest)

theorem unescape_backslash_cons (c : Char) (rest : List Char) :
    unescape (backslash :: c :: rest) = c :: unescape rest := by
  simp [unescape]

theorem unescape_cons_of_ne {c : Char} (h : c ≠ backslash) (rest : List Char) :
    unescape (c :: rest) = c :: unescape rest := by
  cases rest <;> simp [unescape, h]

/-- Reading a spelling back gives the characters that were spelled. -/
theorem unescape_escape (cs : List Char) : unescape (escape cs) = cs := by
  induction cs with
  | nil => rfl
  | cons c rest ih =>
    by_cases h : c = quotationMark ∨ c = backslash
    · rw [escape, if_pos h, unescape_backslash_cons, ih]
    · rw [escape, if_neg h, unescape_cons_of_ne (fun e => h (Or.inr e)), ih]

/-- A string between quotes, as the reader takes it. -/
def quoted (s : String) : String :=
  String.ofList (quotationMark :: (escape s.toList ++ [quotationMark]))

/-- A number in base sixteen, lower case and without padding. -/
def hexadecimal (n : Nat) : String := String.ofList (Nat.toDigits 16 n)

/-- One character as an inspected string shows it. -/
def inspectedChar (c : Char) : String :=
  if c = quotationMark ∨ c = backslash then String.ofList [backslash, c]
  else if c = '\n' then "\\n"
  else if c = '\t' then "\\t"
  else if c = '\r' then "\\r"
  else if c.toNat = 0 then "\\0"
  else if isPrintable c then String.ofList [c]
  else "\\u\x7b" ++ hexadecimal c.toNat ++ "\x7d"

/-- A string between quotes with every unprintable character made visible. -/
def inspected (s : String) : String :=
  let mark := String.ofList [quotationMark]
  mark ++ String.join (s.toList.map inspectedChar) ++ mark

end ExactLisp
