import ExactLisp.Completion
import ExactLisp.Proofs.Store.Visible
import Mathlib.Data.List.Infix
import Mathlib.Data.List.TakeWhile

/-!
# Completing a line

A line is cut in front of the word being typed, and that word is completed from the names in
scope, several of them as far as they agree. Both cuts can be found by byte offsets: the start of
the word by going over the characters of the line from the end (`Completion.wordStart`), the end
of what names agree in by going over the first name together with each of the others
(`Completion.commonBytes`). The offsets count the bytes of whole characters, so neither cut falls
within one, whatever the text is.

What is completed, and how far, is `Store.completes_line`.
-/

namespace ExactLisp

namespace Completion

/-! ## Byte offsets -/

/-- Some characters with the byte offsets at which they start, the first one at `start`. -/
def charOffsets (start : Nat) : List Char → List (Nat × Char)
  | [] => []
  | c :: rest => (start, c) :: charOffsets (start + c.utf8Size) rest

/-- Where the word at the end of a line starts, in bytes. -/
def wordStart (line : String) : Nat :=
  (((charOffsets 0 line.toList).reverse.takeWhile fun p => !isBreaking p.2).getLast?.map
    Prod.fst).getD line.utf8ByteSize

/-- How many bytes a word has in common with another from an offset on, and the offset. -/
def sharedBytes (start : Nat) (first word : List Char) : Nat :=
  ((((charOffsets start first).zip word).takeWhile fun p => p.1.2 == p.2).getLast?.map
    fun p => p.1.1 + p.1.2.utf8Size).getD start

/-- How many bytes a name has in common with all of some others. -/
def commonBytes (first : String) (others : List String) : Nat :=
  others.foldl (fun stop word => min stop (sharedBytes 0 first.toList word.toList))
    first.utf8ByteSize

theorem utf8ByteSize_ofList_cons (c : Char) (cs : List Char) :
    (String.ofList (c :: cs)).utf8ByteSize = c.utf8Size + (String.ofList cs).utf8ByteSize := by
  rw [String.ofList_cons, String.utf8ByteSize_append, String.utf8ByteSize_singleton]

theorem charOffsets_append (start : Nat) (as bs : List Char) :
    charOffsets start (as ++ bs) =
      charOffsets start as ++ charOffsets (start + (String.ofList as).utf8ByteSize) bs := by
  induction as generalizing start with
  | nil => simp [charOffsets]
  | cons a as ih =>
    rw [List.cons_append, charOffsets, charOffsets, ih, utf8ByteSize_ofList_cons,
      Nat.add_assoc, List.cons_append]

theorem map_snd_charOffsets (start : Nat) (cs : List Char) :
    (charOffsets start cs).map Prod.snd = cs := by
  induction cs generalizing start with
  | nil => rfl
  | cons c cs ih => rw [charOffsets, List.map_cons, ih]

theorem head?_charOffsets (start : Nat) (cs : List Char) :
    ((charOffsets start cs).head?.map Prod.fst).getD
      (start + (String.ofList cs).utf8ByteSize) = start := by
  cases cs with
  | nil => simp [charOffsets]
  | cons c cs => rfl

/-! ## The word at the end of a line -/

theorem not_isBreaking_of_mem_split {line : List Char} {c : Char} (h : c ∈ (split line).2) :
    isBreaking c = false := by
  rw [split, List.mem_reverse] at h
  simpa using List.mem_takeWhile_imp h

/-- What is before the word ends with a character that ends words. -/
theorem isBreaking_of_getLast?_split {line : List Char} {c : Char}
    (h : (split line).1.getLast? = some c) : isBreaking c = true := by
  rw [split, List.getLast?_reverse] at h
  have hbreaking := List.head?_dropWhile_not (fun c => !isBreaking c) line.reverse
  rw [h] at hbreaking
  simpa using hbreaking

/-- The word is the longest end of a line without a character that ends words. -/
theorem suffix_split {line ending : List Char} (hending : ending <:+ line)
    (h : ∀ c ∈ ending, isBreaking c = false) : ending <:+ (split line).2 := by
  obtain ⟨before, rfl⟩ := hending
  rw [split, ← List.reverse_prefix, List.reverse_reverse, List.reverse_append,
    List.takeWhile_append_of_pos fun c hc => by simpa using h c (List.mem_reverse.mp hc)]
  exact List.prefix_append _ _

/-- **The offset at which a line is cut** is that of a whole part of it. -/
theorem wordStart_eq (line : String) :
    wordStart line = (String.ofList (split line.toList).1).utf8ByteSize := by
  obtain ⟨leading, stem, hsplit⟩ : ∃ leading stem, split line.toList = (leading, stem) :=
    ⟨_, _, rfl⟩
  have hline : line.toList = leading ++ stem := by
    rw [← split_append line.toList, hsplit]
  have hstem : ∀ p ∈ (charOffsets (String.ofList leading).utf8ByteSize stem).reverse,
      (!isBreaking p.2) = true := by
    intro p hp
    have hmem : p.2 ∈ stem := by
      rw [← map_snd_charOffsets _ stem]
      exact List.mem_map_of_mem (List.mem_reverse.mp hp)
    rw [not_isBreaking_of_mem_split (by rw [hsplit]; exact hmem)]
    rfl
  have hleading : (charOffsets 0 leading).reverse.takeWhile (fun p => !isBreaking p.2) = [] := by
    cases hlast : (charOffsets 0 leading).reverse with
    | nil => rfl
    | cons p before =>
      have hp : (split line.toList).1.getLast? = some p.2 := by
        rw [hsplit, ← map_snd_charOffsets 0 leading, List.getLast?_map, ← List.head?_reverse, hlast]
        rfl
      exact List.takeWhile_cons_of_neg (by simp [isBreaking_of_getLast?_split hp])
  rw [wordStart, hsplit, hline, charOffsets_append, Nat.zero_add, List.reverse_append,
    List.takeWhile_append_of_pos hstem, hleading, List.append_nil, List.getLast?_reverse]
  have hsize : line.utf8ByteSize =
      (String.ofList leading).utf8ByteSize + (String.ofList stem).utf8ByteSize := by
    rw [← String.utf8ByteSize_append, ← String.ofList_append, ← hline, String.ofList_toList]
  rw [hsize, head?_charOffsets]

/-! ## What names start with in common -/

/-- What two words start with in common is the longest start of both. -/
theorem prefix_sharedStart_iff {start first word : List Char} :
    start <+: sharedStart first word ↔ start <+: first ∧ start <+: word := by
  fun_induction sharedStart first word generalizing start with
  | case1 as b bs ih =>
    cases start with
    | nil => simp
    | cons c start => simp [List.cons_prefix_cons, ih]; tauto
  | case2 a as b bs hne =>
    cases start with
    | nil => simp
    | cons c start =>
      simp only [List.cons_prefix_cons, List.prefix_nil, reduceCtorEq, false_iff]
      rintro ⟨⟨rfl, -⟩, rfl, -⟩
      exact hne rfl
  | case3 first word hnil =>
    cases first with
    | nil => simp +contextual
    | cons a as =>
      cases word with
      | nil => simp +contextual
      | cons b bs => exact absurd rfl (hnil a as b bs rfl)

theorem sharedStart_isPrefix (first word : List Char) : sharedStart first word <+: first :=
  (prefix_sharedStart_iff.mp List.prefix_rfl).1

theorem sharedStart_eq_left {start word : List Char} (h : start <+: word) :
    sharedStart start word = start :=
  antisymm (sharedStart_isPrefix start word) (prefix_sharedStart_iff.mpr ⟨List.prefix_rfl, h⟩)

/-- What all of some words start with in common is the longest start of all of them. -/
theorem prefix_foldl_sharedStart_iff {start first : List Char} {others : List (List Char)} :
    start <+: others.foldl sharedStart first ↔
      start <+: first ∧ ∀ word ∈ others, start <+: word := by
  induction others generalizing first with
  | nil => simp
  | cons word others ih =>
    rw [List.foldl_cons, ih, prefix_sharedStart_iff, List.forall_mem_cons, and_assoc]

theorem utf8ByteSize_mono {as bs : List Char} (h : as <+: bs) :
    (String.ofList as).utf8ByteSize ≤ (String.ofList bs).utf8ByteSize := by
  obtain ⟨rest, rfl⟩ := h
  rw [String.ofList_append, String.utf8ByteSize_append]
  exact Nat.le_add_right _ _

/-- Going over two words together comes to the end of what they have in common. -/
theorem sharedBytes_eq (start : Nat) (first word : List Char) :
    sharedBytes start first word =
      start + (String.ofList (sharedStart first word)).utf8ByteSize := by
  fun_induction sharedStart first word generalizing start with
  | case1 as b bs ih =>
    rw [utf8ByteSize_ofList_cons, ← Nat.add_assoc, ← ih, sharedBytes, charOffsets,
      List.zip_cons_cons, List.takeWhile_cons_of_pos (by simp), List.getLast?_cons, sharedBytes]
    -- the last pair is the first one if no other follows
    generalize List.getLast? _ = last
    cases last <;> rfl
  | case2 a as b bs hne => simp [sharedBytes, charOffsets, hne]
  | case3 first word hnil =>
    cases first with
    | nil => simp [sharedBytes, charOffsets]
    | cons a as =>
      cases word with
      | nil => simp [sharedBytes]
      | cons b bs => exact absurd rfl (hnil a as b bs rfl)

/-- Of two starts of one word, the shorter one is the start of both. -/
theorem min_utf8ByteSize {start first : List Char} (hstart : start <+: first) (word : List Char) :
    min (String.ofList start).utf8ByteSize (String.ofList (sharedStart first word)).utf8ByteSize =
      (String.ofList (sharedStart start word)).utf8ByteSize := by
  obtain ⟨hfirst, hword⟩ := prefix_sharedStart_iff.mp (List.prefix_refl (sharedStart first word))
  rcases List.prefix_or_prefix_of_prefix hstart hfirst with h | h
  · rw [sharedStart_eq_left (h.trans hword), Nat.min_eq_left (utf8ByteSize_mono h)]
  · have hshared : sharedStart start word = sharedStart first word :=
      antisymm
        (prefix_sharedStart_iff.mpr ⟨(sharedStart_isPrefix start word).trans hstart,
          (prefix_sharedStart_iff.mp List.prefix_rfl).2⟩)
        (prefix_sharedStart_iff.mpr ⟨h, hword⟩)
    rw [hshared, Nat.min_eq_right (utf8ByteSize_mono h)]

/-- **The offset at which a name is cut** is that of the longest start of all the names. -/
theorem commonBytes_eq (first : String) (others : List String) :
    commonBytes first others =
      (String.ofList (commonStart ((first :: others).map String.toList))).utf8ByteSize := by
  have hfold : ∀ start : List Char, start <+: first.toList →
      others.foldl (fun stop word => min stop (sharedBytes 0 first.toList word.toList))
          (String.ofList start).utf8ByteSize =
        (String.ofList ((others.map String.toList).foldl sharedStart start)).utf8ByteSize := by
    induction others with
    | nil => exact fun _ _ => rfl
    | cons word others ih =>
      intro start hstart
      rw [List.foldl_cons, sharedBytes_eq, Nat.zero_add, min_utf8ByteSize hstart,
        List.map_cons, List.foldl_cons]
      exact ih _ ((sharedStart_isPrefix start word.toList).trans hstart)
  rw [commonBytes, List.map_cons, commonStart, ← hfold _ List.prefix_rfl, String.ofList_toList]

theorem prefix_commonStart_iff {start : List Char} {first : String} {others : List String} :
    start <+: commonStart ((first :: others).map String.toList) ↔
      ∀ name ∈ first :: others, start <+: name.toList := by
  rw [List.map_cons, commonStart, prefix_foldl_sharedStart_iff, List.forall_mem_map,
    List.forall_mem_cons]

/-! ## The completion of a line -/

variable {namesStarting : String → List String} {line : String}

theorem ofLine?_eq_none_iff :
    ofLine? namesStarting line = none ↔ namesStarting (.ofList (split line.toList).2) = [] := by
  obtain ⟨⟨leading, stem⟩, hsplit⟩ : ∃ parts, split line.toList = parts := ⟨_, rfl⟩
  rw [ofLine?, hsplit]
  dsimp only
  split
  · next hnone => exact iff_of_true rfl hnone
  · next name hname => simp [hname]
  · next hnone _ => exact iff_of_false (Option.some_ne_none _) hnone

/-- A completion is one of a single name or one of several. -/
theorem ofLine?_eq_some {completion : Completion}
    (h : ofLine? namesStarting line = some completion) :
    completion.candidates = namesStarting (.ofList (split line.toList).2) ∧
      ((∃ name, completion.candidates = [name] ∧
          completion.replacement =
            String.ofList (split line.toList).1 ++ name ++ " ") ∨
        ∃ first others, others ≠ [] ∧ completion.candidates = first :: others ∧
          completion.replacement = String.ofList (split line.toList).1 ++
            String.ofList (commonStart ((first :: others).map String.toList))) := by
  obtain ⟨⟨leading, stem⟩, hsplit⟩ : ∃ parts, split line.toList = parts := ⟨_, rfl⟩
  rw [ofLine?, hsplit] at h
  rw [hsplit]
  dsimp only at h ⊢
  split at h
  · cases h
  · next name hname =>
    obtain rfl := Option.some.inj h
    refine ⟨hname.symm, Or.inl ⟨name, rfl, ?_⟩⟩
    rw [String.ofList_append, String.ofList_append, String.ofList_toList]
  · next hnone hone =>
    obtain rfl := Option.some.inj h
    match hnames : namesStarting (.ofList stem) with
    | [] => exact absurd hnames hnone
    | [name] => exact absurd hnames (hone name)
    | first :: second :: others =>
      exact ⟨rfl, Or.inr ⟨first, second :: others, List.cons_ne_nil _ _, rfl,
        String.ofList_append⟩⟩

/-- A line is only added to if all names that are found start with its last word. -/
theorem prefix_replacement {completion : Completion}
    (h : ofLine? namesStarting line = some completion)
    (hstem : ∀ name ∈ completion.candidates, (split line.toList).2 <+: name.toList) :
    line.toList <+: completion.replacement.toList := by
  nth_rewrite 1 [← split_append line.toList]
  rcases (ofLine?_eq_some h).2 with ⟨name, hname, h⟩ | ⟨first, others, -, hnames, h⟩
  · rw [h, String.toList_append, String.toList_append, String.toList_ofList, List.append_assoc,
      List.prefix_append_right_inj]
    exact (hstem name (by simp [hname])).trans (List.prefix_append _ _)
  · rw [h, String.toList_append, String.toList_ofList, String.toList_ofList,
      List.prefix_append_right_inj, prefix_commonStart_iff, ← hnames]
    exact hstem

end Completion

/-! ## Lines -/

open Completion

/--
**Completing a line.** A line is cut into what comes before the word being typed and the word,
which is the longest end of the line without a character that ends words, and the offset found by
going over the characters from the end is where a whole part of the line ends. There is no
completion exactly if no visible name starts with the word. Otherwise the candidates are the names
that complete the word, and the line is only added to: a single candidate is put in for the word
with a space after it, several as far as they agree, which is the longest start of all of them
and ends, in bytes, where going over the first one and each of the others puts the cut.
-/
theorem Store.completes_line (s : Store) (scope : ScopeId) (line : String) :
    ∃ leading stem : String,
      line = leading ++ stem ∧ leading.utf8ByteSize = wordStart line ∧
      (∀ c ∈ stem.toList, isBreaking c = false) ∧
      (∀ ending, ending <:+ line.toList → (∀ c ∈ ending, isBreaking c = false) →
        ending <:+ stem.toList) ∧
      (s.completeLine? scope line = none ↔
        ∀ name value, s.lookup scope name = some value → ¬ stem.toList <+: name.toList) ∧
      ∀ completion, s.completeLine? scope line = some completion →
        completion.candidates = s.complete scope stem ∧
        line.toList <+: completion.replacement.toList ∧
        (∀ name, completion.candidates = [name] →
          completion.replacement = leading ++ name ++ " ") ∧
        ∀ first others, completion.candidates = first :: others → others ≠ [] →
          ∃ shared rest, completion.replacement = leading ++ shared ∧ first = shared ++ rest ∧
            shared.utf8ByteSize = commonBytes first others ∧
            (∀ name ∈ completion.candidates, shared.toList <+: name.toList) ∧
            ∀ start : String, (∀ name ∈ completion.candidates, start.toList <+: name.toList) →
              start.toList <+: shared.toList := by
  refine ⟨.ofList (split line.toList).1, .ofList (split line.toList).2, ?_,
    (wordStart_eq line).symm, ?_, ?_, ?_, fun completion h => ?_⟩
  · rw [← String.ofList_append, split_append, String.ofList_toList]
  · simpa using fun c => not_isBreaking_of_mem_split
  · simpa using fun ending => suffix_split
  · rw [completeLine?, ofLine?_eq_none_iff, List.eq_nil_iff_forall_not_mem]
    simp only [mem_complete_iff, List.isPrefixOf_iff_prefix, not_and, forall_exists_index]
  · obtain ⟨hcandidates, hreplacement⟩ := ofLine?_eq_some h
    refine ⟨hcandidates, prefix_replacement h fun name hname => ?_, fun name hname => ?_,
      fun first others hnames hothers => ?_⟩
    · rw [hcandidates, mem_complete_iff, List.isPrefixOf_iff_prefix, String.toList_ofList] at hname
      exact hname.2
    · rcases hreplacement with ⟨other, hother, h⟩ | ⟨first, others, hothers, hnames, -⟩
      · rw [hname] at hother
        rw [h, List.singleton_inj.mp hother]
      · rw [hname] at hnames
        exact absurd (List.cons_eq_cons.mp hnames).2.symm hothers
    · rcases hreplacement with ⟨other, hother, -⟩ | ⟨first', others', -, hnames', h⟩
      · rw [hnames] at hother
        exact absurd (List.cons_eq_cons.mp hother).2 hothers
      · rw [hnames] at hnames'
        obtain ⟨rfl, rfl⟩ := List.cons_eq_cons.mp hnames'
        have hstarts := prefix_commonStart_iff.mp
          (List.prefix_refl (commonStart ((first :: others).map String.toList)))
        obtain ⟨rest, hrest⟩ := hstarts first List.mem_cons_self
        refine ⟨_, .ofList rest, h, ?_, (commonBytes_eq first others).symm, ?_, ?_⟩
        · rw [← String.ofList_append, hrest, String.ofList_toList]
        · rw [hnames, String.toList_ofList]
          exact hstarts
        · intro start hstart
          rw [String.toList_ofList, prefix_commonStart_iff, ← hnames]
          exact hstart

/-- For instance with two names that differ after two letters, of two bytes and of one. -/
theorem Store.completes_line_accented :
    let s := ((empty.newScope none).2.bind 0 "été" (.symbol "a")).bind 0 "étude" (.symbol "b")
    let several : Completion := ⟨"(ét", ["étude", "été"]⟩
    let single : Completion := ⟨"(étude ", ["étude"]⟩
    ((s.completeLine? 0 "(é" = some several ∧ several.candidates = "étude" :: ["été"] ∧
        ["été"] ≠ [] ∧ ∀ name ∈ several.candidates, "é".toList <+: name.toList) ∧
      ∃ leading shared rest, several.replacement = leading ++ shared ∧ "étude" = shared ++ rest ∧
        leading.utf8ByteSize = wordStart "(é" ∧
        shared.utf8ByteSize = commonBytes "étude" ["été"] ∧ "é".toList <+: shared.toList) ∧
    ((s.completeLine? 0 "(étu" = some single ∧ single.candidates = ["étude"] ∧
        ['u'] <:+ "(étu".toList ∧ ∀ c ∈ ['u'], isBreaking c = false) ∧
      ∃ leading stem, "(étu" = leading ++ stem ∧ single.replacement = leading ++ "étude" ++ " " ∧
        ['u'] <:+ stem.toList) := by
  intro s several single
  have hchain : s.chain 0 = [0] := chain_of_root rfl
  have hseveral : s.completeLine? 0 "(é" = some several := by
    simp only [completeLine?, ofLine?, complete, hchain]
    decide +kernel
  have hsingle : s.completeLine? 0 "(étu" = some single := by
    simp only [completeLine?, ofLine?, complete, hchain]
    decide +kernel
  have hstart : ∀ name ∈ several.candidates, "é".toList <+: name.toList := by
    rw [List.forall_mem_cons, List.forall_mem_singleton]
    exact ⟨⟨['t', 'u', 'd', 'e'], rfl⟩, ⟨['t', 'é'], rfl⟩⟩
  have hending : ['u'] <:+ "(étu".toList := ⟨['(', 'é', 't'], rfl⟩
  have hbreaking : ∀ c ∈ ['u'], isBreaking c = false := by
    rw [List.forall_mem_singleton]
    decide
  refine ⟨⟨⟨hseveral, rfl, List.cons_ne_nil _ _, hstart⟩, ?_⟩,
    ⟨⟨hsingle, rfl, hending, hbreaking⟩, ?_⟩⟩
  · obtain ⟨leading, _, -, hleading, -, -, -, hsome⟩ := completes_line s 0 "(é"
    obtain ⟨-, -, -, hmany⟩ := hsome several hseveral
    obtain ⟨shared, rest, hreplacement, hfirst, hshared, -, hlongest⟩ :=
      hmany "étude" ["été"] rfl (List.cons_ne_nil _ _)
    exact ⟨leading, shared, rest, hreplacement, hfirst, hleading, hshared, hlongest "é" hstart⟩
  · obtain ⟨leading, stem, hline, -, -, hsuffix, -, hsome⟩ := completes_line s 0 "(étu"
    obtain ⟨-, -, hone, -⟩ := hsome single hsingle
    exact ⟨leading, stem, hline, hone "étude" rfl, hsuffix ['u'] hending hbreaking⟩

end ExactLisp
