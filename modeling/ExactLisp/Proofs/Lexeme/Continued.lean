import ExactLisp.Proofs.Lexeme.Canonical

/-!
# A text that goes on

The lexemes of a text with more after it are the ones that the text completes, and then
those of the rest, read on from what was pending (`scanFrom_append`). So all lexemes of
the text stay as they are if what comes after it starts with a line break, because that
ends whatever is pending (`scanFrom_append_line`). The one exception is a string with no
end: it is the last lexeme, it takes the line break as well, and it may still be closed
(`scanFrom_str_line`).
-/

namespace ExactLisp.Lexeme

/-- The lexemes that some characters complete. -/
def completed (mode : Mode) : Pending → List Char → List Lexeme
  | _, [] => []
  | p, c :: rest => (step mode p c).1 ++ completed mode (step mode p c).2 rest

/-- What is pending after some characters. -/
def Pending.after (mode : Mode) : Pending → List Char → Pending
  | p, [] => p
  | p, c :: rest => Pending.after mode (step mode p c).2 rest

/-- Whether the pending lexeme is a string. -/
def Pending.isStr : Pending → Bool
  | .str .. => true
  | .idle | .word _ | .comment _ => false

/-- **Scanning goes on** from what is pending. -/
theorem scanFrom_append (mode : Mode) (p : Pending) (cs ds : List Char) :
    scanFrom mode p (cs ++ ds) = completed mode p cs ++ scanFrom mode (p.after mode cs) ds := by
  induction cs generalizing p with
  | nil => rfl
  | cons c rest ih =>
    rw [List.cons_append, scanFrom, ih, completed, List.append_assoc]
    rfl

theorem scanFrom_eq_completed (mode : Mode) (p : Pending) (cs : List Char) :
    scanFrom mode p cs = completed mode p cs ++ (p.after mode cs).flush := by
  have h := scanFrom_append mode p cs []
  rwa [List.append_nil, scanFrom] at h

/-! ## Line breaks -/

theorem scanFrom_idle_newline (mode : Mode) (rest : List Char) :
    scanFrom mode .idle ('\n' :: rest) = .space '\n' :: scanFrom mode .idle rest := by
  cases mode <;> rfl

/-- A line break ends what is pending, unless it is a string. -/
theorem scanFrom_newline {mode : Mode} {p : Pending} (hp : p.isStr = false) (rest : List Char) :
    scanFrom mode p ('\n' :: rest) = p.flush ++ scanFrom mode .idle ('\n' :: rest) := by
  cases p with
  | idle => rfl
  | word reversed =>
    have hword : isWordChar mode '\n' = false := by cases mode <;> rfl
    rw [scanFrom, step, if_neg (by simp [hword])]
    rfl
  | str reversed escaped => cases hp
  | comment reversed => rfl

/-- **Nothing changes before a line break**, unless a string is pending there. -/
theorem scanFrom_append_line {mode : Mode} {p : Pending} {cs ds : List Char}
    (hp : (p.after mode cs).isStr = false) (hds : ∀ c ∈ ds.head?, c = '\n') :
    scanFrom mode p (cs ++ ds) = scanFrom mode p cs ++ scanFrom mode .idle ds := by
  rw [scanFrom_append, scanFrom_eq_completed mode p cs, List.append_assoc]
  cases ds with
  | nil => simp [scanFrom, Pending.flush]
  | cons d ds =>
    rw [hds d rfl, scanFrom_newline hp]

/-! ## A string that is pending -/

/-- Whatever comes next, the pending string is the next lexeme. -/
theorem exists_scanFrom_str (mode : Mode) (reversed : List Char) (escaped : Bool)
    (cs : List Char) : ∃ raw closed rest,
      scanFrom mode (.str reversed escaped) cs = .str raw closed :: rest := by
  induction cs generalizing reversed escaped with
  | nil => exact ⟨_, _, _, rfl⟩
  | cons c cs ih =>
    rw [scanFrom, step.eq_def]
    cases escaped with
    | true => exact ih (c :: reversed) false
    | false =>
      dsimp only
      split
      · exact ⟨_, _, _, rfl⟩
      · exact ih (c :: reversed) (c = backslash)

/-- A quotation mark on the next line closes the pending string. -/
theorem scanFrom_str_line (mode : Mode) (reversed : List Char) (escaped : Bool)
    (cs : List Char) :
    scanFrom mode (.str reversed escaped) ('\n' :: quotationMark :: cs) =
      .str ('\n' :: reversed).reverse true :: scanFrom mode .idle cs := by
  cases escaped <;> rfl

/-! ## Texts -/

/-- Only the last lexeme of a text can be a string with no end. -/
theorem Canonical.str_closed {mode : Mode} {xs ys : List Lexeme} {y : Lexeme}
    (h : Canonical mode (xs ++ y :: ys)) (raw : List Char) : .str raw false ∉ xs := by
  intro hmem
  obtain ⟨before, after, rfl⟩ := List.append_of_mem hmem
  have hchain := h.apart
  rw [List.append_assoc, List.cons_append] at hchain
  have hnext := (List.isChain_append.mp hchain).2.1
  cases after with
  | nil => exact List.rel_of_isChain_cons_cons hnext
  | cons z after => exact List.rel_of_isChain_cons_cons hnext

/-- How a text goes on on the next line. No string before its last lexeme lacks its end. -/
inductive Continues (mode : Mode) (text : String) : Prop
  /-- Its lexemes stay. -/
  | apart (ended : ∀ raw, .str raw false ∉ scan mode text)
      (any : ∀ more : String, scan mode (text ++ "\n" ++ more) =
        scan mode text ++ .space '\n' :: scan mode more)
  /-- Its last lexeme is a string with no end, which goes on. -/
  | inStr {xs : List Lexeme} {raw : List Char} (ended : ∀ raw, .str raw false ∉ xs)
      (last : scan mode text = xs ++ [.str raw false])
      (any : ∀ more : String, ∃ raw closed rest,
        scan mode (text ++ "\n" ++ more) = xs ++ .str raw closed :: rest)
      (closed : ∃ raw, ∀ more : List Char,
        scan mode (text ++ "\n" ++ String.ofList (quotationMark :: more)) =
          xs ++ .str raw true :: scanFrom mode .idle more)

theorem continues (mode : Mode) (text : String) : Continues mode text := by
  have happend : ∀ more : String, scan mode (text ++ "\n" ++ more) =
      scanFrom mode .idle (text.toList ++ '\n' :: more.toList) := by
    intro more
    simp [scan, String.toList_append]
  cases hp : Pending.after mode .idle text.toList with
  | str reversed escaped =>
    have hlast : scan mode text =
        completed mode .idle text.toList ++ [.str reversed.reverse false] := by
      rw [scan, scanFrom_eq_completed, hp]
      rfl
    refine .inStr (Canonical.str_closed (hlast ▸ canonical_scan mode text)) hlast
      (fun more => ?_) ⟨('\n' :: reversed).reverse, fun more => ?_⟩
    · obtain ⟨raw, closed, rest, h⟩ :=
        exists_scanFrom_str mode reversed escaped ('\n' :: more.toList)
      exact ⟨raw, closed, rest, by rw [happend, scanFrom_append, hp, h]⟩
    · rw [happend, String.toList_ofList, scanFrom_append, hp, scanFrom_str_line]
  | idle | word reversed | comment reversed =>
    have hany : ∀ more : String, scan mode (text ++ "\n" ++ more) =
        scan mode text ++ .space '\n' :: scan mode more := by
      intro more
      rw [happend, scanFrom_append_line (by rw [hp]; rfl) (by simp), scanFrom_idle_newline]
      rfl
    exact .apart (Canonical.str_closed (hany "" ▸ canonical_scan mode (text ++ "\n" ++ ""))) hany

end ExactLisp.Lexeme
