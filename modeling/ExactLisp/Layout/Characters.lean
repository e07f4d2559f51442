import ExactLisp.Layout.Tree

/-!
# A tree keeps every character

While a tree grows, the characters of the root so far and of the open aggregates,
from the outermost in, are those of the lexemes read so far: each lexeme adds
exactly what it was cut from (`Growth.characters_read`), wherever it is put and
whatever it closes. Ending the aggregates that are still open moves nothing
(`Growth.flatMap_characters_finish`).
-/

namespace ExactLisp.Layout

namespace Token

theorem allCharacters_eq_flatMap (ts : List Token) :
    allCharacters ts = ts.flatMap characters := by
  induction ts with
  | nil => rfl
  | cons t rest ih => rw [allCharacters, ih, List.flatMap_cons]

@[simp] theorem characters_aggregate (kind : Kind) (children : List Token) :
    (aggregate kind children).characters = children.flatMap characters := by
  rw [characters, allCharacters_eq_flatMap]

@[simp] theorem characters_plain (text : List Char) : (plain text).characters = text := by
  rw [plain, characters]

@[simp] theorem characters_char (c : Char) : (char c).characters = [c] := by
  rw [char, characters_plain]

end Token

theorem characters_stringToken (raw : List Char) (closed : Bool) :
    (stringToken raw closed).characters = (Lexeme.str raw closed).spelling := by
  cases raw <;> cases closed <;> simp [stringToken, Lexeme.spelling]

theorem characters_commentToken (text : List Char) :
    (commentToken text).characters = (Lexeme.comment text).spelling := by
  cases text <;> simp [commentToken, Lexeme.spelling]

/-- The children of a string are atoms of the source. -/
theorem plain_of_mem_stringToken {raw : List Char} {closed : Bool} {kind : Kind}
    {children : List Token} (h : stringToken raw closed = .aggregate kind children) :
    ∀ t ∈ children, ∃ text, t = .plain text := by
  injection h with _ h
  subst h
  cases raw <;> cases closed <;> simp [Token.char, Token.plain]

/-- The children of a comment are atoms of the source. -/
theorem plain_of_mem_commentToken {text : List Char} {kind : Kind} {children : List Token}
    (h : commentToken text = .aggregate kind children) : ∀ t ∈ children, ∃ text, t = .plain text := by
  injection h with _ h
  subst h
  cases text <;> simp [Token.char, Token.plain]

namespace Growth

/-- The characters of nodes that are kept last one first. -/
def charactersOf (reversed : List Token) : List Char := reversed.reverse.flatMap Token.characters

@[simp] theorem charactersOf_cons (t : Token) (reversed : List Token) :
    charactersOf (t :: reversed) = charactersOf reversed ++ t.characters := by
  simp [charactersOf]

/-- The characters of the open aggregates, from the outermost in. -/
def stackCharacters : List OpenAggregate → List Char
  | [] => []
  | top :: stack => stackCharacters stack ++ charactersOf top.reversed

/-- All characters that have been built into the tree. -/
def characters (g : Growth) : List Char := charactersOf g.reversed ++ stackCharacters g.stack

theorem characters_deliver (t : Token) (stack : List OpenAggregate) (reversed : List Token) :
    (deliver t stack reversed).characters =
      (Growth.mk stack reversed).characters ++ t.characters := by
  induction stack generalizing t with
  | nil => simp [deliver, characters, stackCharacters]
  | cons top stack ih =>
    rw [deliver]
    split
    · rw [ih]
      simp [characters, stackCharacters, charactersOf]
    · simp [characters, stackCharacters]

theorem characters_leave (top : OpenAggregate) (stack : List OpenAggregate)
    (reversed : List Token) :
    (leave top stack reversed).characters = (Growth.mk (top :: stack) reversed).characters := by
  rw [leave, characters_deliver]
  simp [characters, stackCharacters, charactersOf]

/-- Delivering a node adds its characters. -/
theorem characters_deliver_node (g : Growth) (t : Token) :
    (deliver t g.stack g.reversed).characters = g.characters ++ t.characters :=
  characters_deliver t g.stack g.reversed

theorem characters_readNode {g next : Growth} {x : Lexeme} (h : readNode g x = .ok next) :
    next.characters = g.characters ++ x.spelling := by
  unfold readNode at h
  split at h
  · cases h
  · split at h <;> cases h
    case h_1 | h_2 => simp [characters, stackCharacters, charactersOf, Lexeme.spelling]
    case h_3 => rw [characters_deliver_node, characters_stringToken]
    case h_4 => rw [characters_deliver_node, characters_commentToken]
    all_goals simp [characters_deliver_node, Lexeme.spelling]

theorem characters_readInside {g next : Growth} {x : Lexeme} (h : readInside g x = .ok next) :
    next.characters = g.characters ++ x.spelling := by
  unfold readInside at h
  split at h
  next top stack b hs =>
    split at h
    · cases h
      rw [characters_leave]
      simp [characters, stackCharacters, hs, Lexeme.spelling]
    · exact characters_readNode h
  · exact characters_readNode h

/-- A lexeme adds the characters it was cut from. -/
theorem characters_read {g next : Growth} {x : Lexeme} (h : read g x = .ok next) :
    next.characters = g.characters ++ x.spelling := by
  unfold read at h
  split at h
  next top stack hs =>
    split at h
    · split at h
      · cases h
        simp [characters, stackCharacters, hs, Lexeme.spelling]
      · rw [characters_readInside h, characters_leave, ← hs]
      · rw [characters_readInside h, characters_leave, ← hs]
      · exact characters_readNode h
    · exact characters_readInside h
  · exact characters_readNode h

theorem characters_readAll {g last : Growth} {xs : List Lexeme} (h : readAll g xs = .ok last) :
    last.characters = g.characters ++ xs.flatMap Lexeme.spelling := by
  induction xs generalizing g with
  | nil => cases h; simp
  | cons x rest ih =>
    rw [readAll] at h
    split at h
    next next hx => rw [ih h, characters_read hx]; simp
    · cases h

theorem flatMap_characters_finish (inner : List Token) (stack : List OpenAggregate)
    (reversed : List Token) :
    (finish inner stack reversed).flatMap Token.characters =
      (Growth.mk stack reversed).characters ++ inner.reverse.flatMap Token.characters := by
  induction stack generalizing inner with
  | nil => simp [finish, characters, stackCharacters, charactersOf]
  | cons top stack ih =>
    rw [finish, ih]
    simp [characters, stackCharacters, charactersOf]

end Growth

end ExactLisp.Layout
