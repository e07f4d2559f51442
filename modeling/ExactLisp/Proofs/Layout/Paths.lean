import ExactLisp.Proofs.Layout.Pieces

/-!
# Paths to the rows of a tree

A node is found in a tree by its path, which leaves white space out (`locate`). The passes
change nothing but white space, so a path leads to the same node before and after them. If
the node is an aggregate with forms in it, it is the inside of a laid out row (`Inside`):
that of the source gaps in the source, and that of what the passes have made of them in
the end (`exists_inside_of_locate`).
-/

namespace ExactLisp.Layout

/-! ## Nodes in a tree -/

mutual

/-- Where a node occurs in another one: after some of its characters. -/
inductive Occurs (u : Token) : List Char → Token → Prop where
  | here : Occurs u [] u
  | inside {before : List Char} {kind : Kind} {children : List Token} :
    OccursAmong u before children → Occurs u before (.aggregate kind children)

/-- Where a node occurs in some nodes. -/
inductive OccursAmong (u : Token) : List Char → List Token → Prop where
  | first {before : List Char} {t : Token} {rest : List Token} :
    Occurs u before t → OccursAmong u before (t :: rest)
  | later {before : List Char} {t : Token} {rest : List Token} :
    OccursAmong u before rest → OccursAmong u (t.characters ++ before) (t :: rest)

end

/-- Count some characters as standing before a node, too. -/
def putBefore (cs : List Char) (p : List Char × Token) : List Char × Token := (cs ++ p.1, p.2)

/-- A child by its number, white space not counted, and the characters before it. -/
def nthForm : Nat → List Token → Option (List Char × Token)
  | _, [] => none
  | n, t :: rest =>
    if t.isWhitespace then (nthForm n rest).map (putBefore t.characters)
    else if n = 0 then some ([], t)
    else (nthForm (n - 1) rest).map (putBefore t.characters)

/-- A node of a tree by the numbers of the children on the way to it, and the characters before it. -/
def locate : List Nat → Token → Option (List Char × Token)
  | [], t => some ([], t)
  | _ :: _, .atom .. => none
  | n :: path, .aggregate _ children =>
    (nthForm n children).bind fun p => (locate path p.2).map (putBefore p.1)

theorem map_putBefore_map_putBefore (first second : List Char) (p : Option (List Char × Token)) :
    (p.map (putBefore second)).map (putBefore first) = p.map (putBefore (first ++ second)) := by
  rw [Option.map_map]
  refine congrArg (p.map ·) (funext fun q => ?_)
  simp [putBefore]

theorem map_putBefore_eq_some {p : Option (List Char × Token)} {cs before : List Char} {c : Token}
    (h : p.map (putBefore cs) = some (before, c)) :
    ∃ later, p = some (later, c) ∧ before = cs ++ later := by
  obtain ⟨⟨later, d⟩, rfl, he⟩ := Option.map_eq_some_iff.mp h
  cases he
  exact ⟨later, rfl, rfl⟩

theorem map_putBefore_nil (p : Option (List Char × Token)) : p.map (putBefore []) = p := by
  cases p <;> rfl

theorem nthForm_cons_whitespace {t : Token} (h : t.isWhitespace = true) (n : Nat)
    (rest : List Token) :
    nthForm n (t :: rest) = (nthForm n rest).map (putBefore t.characters) := by
  rw [nthForm, if_pos h]

theorem nthForm_cons_zero {t : Token} (h : t.isWhitespace = false) (rest : List Token) :
    nthForm 0 (t :: rest) = some ([], t) := by
  rw [nthForm, h]
  rfl

theorem nthForm_cons_succ {t : Token} (h : t.isWhitespace = false) (n : Nat) (rest : List Token) :
    nthForm (n + 1) (t :: rest) = (nthForm n rest).map (putBefore t.characters) := by
  rw [nthForm, h]
  rfl

theorem locate_cons {kind : Kind} {ts : List Token} {n : Nat} {path : List Nat}
    {ahead later : List Char} {c u : Token} (hn : nthForm n ts = some (ahead, c))
    (hc : locate path c = some (later, u)) :
    locate (n :: path) (.aggregate kind ts) = some (ahead ++ later, u) := by
  rw [locate, hn, Option.bind_some, hc]
  rfl

theorem mem_of_nthForm {c : Token} : ∀ {n : Nat} {ts : List Token} {before : List Char},
    nthForm n ts = some (before, c) → c ∈ ts
  | _, [], _, h => by cases h
  | n, t :: rest, before, h => by
    have hrest : ∀ m, (nthForm m rest).map (putBefore t.characters) = some (before, c) →
        c ∈ t :: rest := by
      intro m hm
      obtain ⟨later, hlater, -⟩ := map_putBefore_eq_some hm
      exact List.mem_cons_of_mem t (mem_of_nthForm hlater)
    cases ht : t.isWhitespace with
    | true =>
      rw [nthForm_cons_whitespace ht] at h
      exact hrest n h
    | false =>
      cases n with
      | zero =>
        rw [nthForm_cons_zero ht] at h
        cases h
        exact List.mem_cons_self
      | succ n =>
        rw [nthForm_cons_succ ht] at h
        exact hrest n h

mutual

/-- What occurs in a tree has a path, unless it is white space. -/
theorem exists_locate_of_occurs {kind : Kind} {children : List Token} :
    ∀ {t : Token} {before : List Char}, Occurs (.aggregate kind children) before t →
      ∃ path, locate path t = some (before, .aggregate kind children)
  | _, _, .here => ⟨[], rfl⟩
  | _, _, .inside h => by
    obtain ⟨n, path, ahead, c, later, hn, hc, rfl⟩ := exists_nthForm_of_occursAmong h
    exact ⟨n :: path, locate_cons hn hc⟩

theorem exists_nthForm_of_occursAmong {kind : Kind} {children : List Token} :
    ∀ {ts : List Token} {before : List Char}, OccursAmong (.aggregate kind children) before ts →
      ∃ n path ahead c later, nthForm n ts = some (ahead, c) ∧
        locate path c = some (later, .aggregate kind children) ∧ before = ahead ++ later
  | t :: rest, before, .first h => by
    obtain ⟨path, hpath⟩ := exists_locate_of_occurs h
    have ht : t.isWhitespace = false := by
      cases h with
      | here | inside => rfl
    exact ⟨0, path, [], t, before, nthForm_cons_zero ht rest, hpath, rfl⟩
  | t :: rest, _, .later h => by
    obtain ⟨n, path, ahead, c, later, hn, hc, rfl⟩ := exists_nthForm_of_occursAmong h
    have happend := (List.append_assoc t.characters ahead later).symm
    cases ht : t.isWhitespace with
    | true =>
      refine ⟨n, path, t.characters ++ ahead, c, later, ?_, hc, happend⟩
      rw [nthForm_cons_whitespace ht, hn]
      rfl
    | false =>
      refine ⟨n + 1, path, t.characters ++ ahead, c, later, ?_, hc, happend⟩
      rw [nthForm_cons_succ ht, hn]
      rfl

end

/-! ## Rows inside of aggregates -/

/-- Whether some pieces stand among others, after characters of the source. -/
def StandsAt (whole : List Piece) (before : List Char) (part : List Piece) : Prop :=
  ∃ front back, whole = front ++ (part ++ back) ∧ sourceText front = before

theorem StandsAt.middle {whole : List Piece} {before : List Char} (first second : List Piece)
    {third : List Piece} (h : StandsAt whole before (first ++ (second ++ third))) :
    StandsAt whole (before ++ sourceText first) second := by
  obtain ⟨front, back, rfl, rfl⟩ := h
  exact ⟨front ++ first, third ++ back, by simp, sourceText_append front first⟩

theorem StandsAt.right {whole : List Piece} {before : List Char} (first second : List Piece)
    (h : StandsAt whole before (first ++ second)) :
    StandsAt whole (before ++ sourceText first) second := by
  rw [← List.append_nil second] at h
  exact h.middle first second

namespace Shell

/-- The opening delimiter as pieces. -/
def openerPieces : Shell → List Piece
  | root => []
  | group b _ => [.inl (.opening b)]

/-- The closing delimiter as pieces, if it is there. -/
def closerPieces : Shell → List Piece
  | root => []
  | group b closed => if closed then [.inl (.closing b)] else []

theorem characters_openerTokens (shell : Shell) :
    shell.openerTokens.flatMap Token.characters = sourceText shell.openerPieces := by
  cases shell with
  | root => rfl
  | group b closed =>
    simp [openerTokens, openerPieces, sourceText, pieceLexemes, Lexeme.spelling]

theorem atom_of_mem_closerTokens (shell : Shell) :
    ∀ t ∈ shell.closerTokens, ∃ text lineBreak, t = .atom text lineBreak := by
  intro t ht
  rcases shell with _ | ⟨b, _ | _⟩
  · cases ht
  · cases ht
  · exact ⟨_, _, List.mem_singleton.mp ht⟩

end Shell

/-- The children of an aggregate that a row is the inside of. -/
def Shell.children (shell : Shell) (row : Row Laid) : List Token :=
  shell.enclose (row.map Laid.source).tokens

/-- Whether a row is the inside of an aggregate that stands among some pieces. -/
structure Inside (whole : List Piece) (before : List Char) (shell : Shell) (isBindings : Bool)
    (row : Row Laid) : Prop where
  stands : StandsAt whole before (shell.openerPieces ++ (row.pieces ++ shell.closerPieces))
  placed : row.Placed Laid.spot Laid.isLong (.start shell isBindings row)
  valid : row.All Laid.Valid
  matched : row.Matched shell.own

/-- Whether an aggregate is given by a row among some pieces. -/
def IsRow (whole : List Piece) (before : List Char) (kind : Kind) (children : List Token) : Prop :=
  ∃ shell isBindings row, Inside whole before shell isBindings row ∧ kind = shell.kind ∧
    children = shell.children row

/-- Whether a form stands among some pieces. -/
structure Form.Stands (whole : List Piece) (before : List Char) (isBindings : Bool)
    (form : Form Laid) : Prop where
  stands : StandsAt whole before form.pieces
  placed : form.Placed Laid.spot Laid.isLong isBindings
  valid : form.All Laid.Valid
  matched : form.Matched

/-- What all passes make of a gap. -/
def Laid.final (p : Laid) : Gap := p.1.final

section
variable {whole : List Piece} {before : List Char} {shell : Shell} {isBindings : Bool}
  {row : Row Laid} {front : List (Laid × Form Laid)}

/-- A group is the inside of its brackets. -/
theorem Form.Stands.inside {b : Bracket} {closed : Bool}
    (h : (Form.group b row closed).Stands whole before isBindings) :
    Inside whole before (.group b closed) isBindings row :=
  ⟨h.stands, h.placed, h.valid, h.matched⟩

/-- What is known of a row is known of every part of it. -/
theorem Inside.of_behind (hi : Inside whole before shell isBindings row) {tail : Row Laid}
    (hrow : row = tail.behind front) :
    tail.Placed Laid.spot Laid.isLong
        ((Reach.start shell isBindings row).pass Laid.isLong front) ∧
      tail.All Laid.Valid ∧ tail.Matched shell.own := by
  obtain ⟨-, hplaced, hvalid, hmatched⟩ := hi
  generalize Reach.start shell isBindings row = r at hplaced ⊢
  subst hrow
  exact ⟨Row.placed_of_behind hplaced, (Row.all_of_behind hvalid).2,
    Row.matched_of_behind hmatched⟩

theorem Inside.stands_behind (hi : Inside whole before shell isBindings row) {tail : Row Laid}
    (hrow : row = tail.behind front) :
    StandsAt whole before
      (shell.openerPieces ++ (itemPieces front ++ (tail.pieces ++ shell.closerPieces))) := by
  have hstands := hi.stands
  rwa [hrow, Row.pieces_behind, List.append_assoc] at hstands

theorem Inside.stands_form (hi : Inside whole before shell isBindings row) {p : Laid}
    {form : Form Laid} {rest : Row Laid} (hrow : row = Row.behind front (.item p form rest)) :
    form.Stands whole (before ++ sourceText (shell.openerPieces ++ itemPieces front ++ [.inr p]))
      ((Reach.start shell isBindings row).pass Laid.isLong front).atBindings := by
  obtain ⟨hplaced, hvalid, hmatched⟩ := hi.of_behind hrow
  have hbehind := hi.stands_behind hrow
  have hsplit : shell.openerPieces ++ (itemPieces front ++
        ((Row.item p form rest).pieces ++ shell.closerPieces)) =
      (shell.openerPieces ++ itemPieces front ++ [.inr p]) ++
        (form.pieces ++ (rest.pieces ++ shell.closerPieces)) := by
    simp [Row.pieces]
  rw [hsplit] at hbehind
  exact ⟨hbehind.middle _ _, hplaced.2.1, hvalid.2.1, hmatched.1⟩

end

/-! ## Paths to rows -/

theorem atom_of_mem_gapTokens (gap : Gap) :
    ∀ t ∈ gapTokens gap, ∃ text lineBreak, t = .atom text lineBreak := by
  intro t ht
  obtain ⟨m, -, rfl⟩ := List.mem_map.mp ht
  cases m <;> exact ⟨_, _, rfl⟩

/-- A path to an aggregate of an aggregate goes through one of its children, an aggregate, too. -/
theorem exists_nthForm_of_locate_cons {n : Nat} {path : List Nat} {t : Token} {before : List Char}
    {kind : Kind} {children : List Token}
    (h : locate (n :: path) t = some (before, .aggregate kind children)) :
    ∃ outer ts ahead inner us later, t = .aggregate outer ts ∧
      nthForm n ts = some (ahead, .aggregate inner us) ∧
        locate path (.aggregate inner us) = some (later, .aggregate kind children) ∧
          before = ahead ++ later := by
  cases t with
  | atom => cases h
  | aggregate outer ts =>
    obtain ⟨⟨ahead, c⟩, hc, hpath⟩ := Option.bind_eq_some_iff.mp h
    obtain ⟨later, hlater, rfl⟩ := map_putBefore_eq_some hpath
    cases c with
    | atom => cases path <;> cases hlater
    | aggregate inner us => exact ⟨outer, ts, ahead, inner, us, later, rfl, hc, hlater, rfl⟩

/-- Atoms are not aggregates. -/
theorem not_nthForm_of_atoms {ts : List Token}
    (ha : ∀ t ∈ ts, ∃ text lineBreak, t = .atom text lineBreak) {n : Nat} {before : List Char}
    {kind : Kind} {children : List Token} :
    nthForm n ts ≠ some (before, .aggregate kind children) := by
  intro h
  obtain ⟨text, lineBreak, he⟩ := ha _ (mem_of_nthForm h)
  cases he

theorem nthForm_gap (n : Nat) (gap : Gap) (rest : List Token) :
    nthForm n (gapTokens gap ++ rest) =
      (nthForm n rest).map (putBefore ((gapTokens gap).flatMap Token.characters)) := by
  induction gap with
  | nil => exact (map_putBefore_nil _).symm
  | cons m gap ih =>
    rw [gapTokens, List.map_cons, List.cons_append,
      nthForm_cons_whitespace (isWhitespace_markToken m), ← gapTokens, ih,
      map_putBefore_map_putBefore, List.flatMap_cons]

/-- The form of a row that stands behind some others, as a node. -/
theorem Row.nthForm_behind {γ : Type} (get : γ → Gap) (gap : γ) (form : Form γ) (rest : Row γ)
    (ts : List Token) (front : List (γ × Form γ)) :
    nthForm front.length ((((Row.item gap form rest).behind front).map get).tokens ++ ts) =
      some ((itemTokens get front ++ gapTokens (get gap)).flatMap Token.characters,
        (form.map get).token) := by
  induction front with
  | nil =>
    have htokens : (((Row.item gap form rest).behind []).map get).tokens ++ ts =
        gapTokens (get gap) ++ (form.map get).token :: ((rest.map get).tokens ++ ts) := by
      simp [behind, Row.map, Row.tokens]
    rw [htokens, nthForm_gap, List.length_nil, nthForm_cons_zero (isWhitespace_form _)]
    simp [putBefore, itemTokens]
  | cons p front ih =>
    have htokens : (((Row.item gap form rest).behind (p :: front)).map get).tokens ++ ts =
        gapTokens (get p.1) ++ (p.2.map get).token ::
          ((((Row.item gap form rest).behind front).map get).tokens ++ ts) := by
      simp [behind, Row.map, Row.tokens]
    rw [htokens, nthForm_gap, List.length_cons, nthForm_cons_succ (isWhitespace_form _), ih]
    simp [putBefore, itemTokens]

/-- A child of an aggregate that is an aggregate itself is a form of its row. -/
theorem Row.exists_behind_nthForm {γ : Type} (get : γ → Gap) {ts : List Token}
    (ha : ∀ t ∈ ts, ∃ text lineBreak, t = .atom text lineBreak) {kind : Kind}
    {children : List Token} : ∀ (row : Row γ) (n : Nat) {before : List Char},
      nthForm n ((row.map get).tokens ++ ts) = some (before, .aggregate kind children) →
        ∃ front gap form rest, row = behind front (.item gap form rest) ∧ n = front.length
  | .last gap, n, _, h => by
    rw [Row.map, Row.tokens, nthForm_gap] at h
    obtain ⟨_, hatom, -⟩ := map_putBefore_eq_some h
    exact absurd hatom (not_nthForm_of_atoms ha)
  | .item gap form rest, n, _, h => by
    rw [Row.map, Row.tokens, List.append_assoc, List.cons_append, nthForm_gap] at h
    cases n with
    | zero => exact ⟨[], gap, form, rest, rfl, rfl⟩
    | succ n =>
      rw [nthForm_cons_succ (isWhitespace_form _), map_putBefore_map_putBefore] at h
      obtain ⟨_, hlater, -⟩ := map_putBefore_eq_some h
      obtain ⟨front, p, f, others, hrest, hn⟩ := rest.exists_behind_nthForm get ha n hlater
      exact ⟨(gap, form) :: front, p, f, others, by rw [hrest]; rfl, by rw [hn]; rfl⟩

namespace Shell

theorem nthForm_enclose (shell : Shell) (n : Nat) (ts : List Token) :
    nthForm (shell.openerTokens.length + n) (shell.enclose ts) =
      (nthForm n (ts ++ shell.closerTokens)).map
        (putBefore (shell.openerTokens.flatMap Token.characters)) := by
  cases shell with
  | root =>
    rw [openerTokens, List.length_nil, Nat.zero_add]
    exact (map_putBefore_nil _).symm
  | group b closed =>
    have hopener : (Token.char b.openChar).isWhitespace = false := by cases b <;> rfl
    have hone : [Token.char b.openChar].length + n = n + 1 := Nat.add_comm ..
    rw [openerTokens, hone, enclose, openerTokens, List.append_assoc, List.singleton_append,
      nthForm_cons_succ hopener, List.flatMap_singleton]

/-- The opening delimiter is an atom. -/
theorem exists_add_of_nthForm_enclose {shell : Shell} {n : Nat} {ts : List Token}
    {before : List Char} {kind : Kind} {children : List Token}
    (h : nthForm n (shell.enclose ts) = some (before, .aggregate kind children)) :
    ∃ m, n = shell.openerTokens.length + m := by
  cases shell with
  | root => exact ⟨n, (Nat.zero_add n).symm⟩
  | group b closed =>
    cases n with
    | zero =>
      have hopener : (Token.char b.openChar).isWhitespace = false := by cases b <;> rfl
      have hzero := nthForm_cons_zero hopener (ts ++ (group b closed).closerTokens)
      rw [enclose, openerTokens, List.append_assoc, List.singleton_append, hzero] at h
      cases h
    | succ m => exact ⟨m, Nat.add_comm ..⟩

end Shell

section
variable {whole : List Piece} {before after : List Char} {shell : Shell} {isBindings : Bool}
  {row : Row Laid} {kind : Kind} {children : List Token}

/-- **A child that is an aggregate** is a form that stands where it stood, before and after the passes. -/
theorem Inside.exists_stands (hi : Inside whole before shell isBindings row) {n : Nat}
    (h : nthForm n (shell.children row) = some (after, .aggregate kind children)) :
    ∃ (form : Form Laid) (atBindings : Bool) (others : List Char),
      form.Stands whole (before ++ after) atBindings ∧
      (form.map Laid.source).token = .aggregate kind children ∧
        nthForm n (shell.enclose (row.map Laid.final).tokens) =
          some (others, (form.map Laid.final).token) := by
  obtain ⟨m, rfl⟩ := Shell.exists_add_of_nthForm_enclose h
  rw [Shell.children, Shell.nthForm_enclose] at h
  obtain ⟨ahead, hm, rfl⟩ := map_putBefore_eq_some h
  obtain ⟨front, p, form, rest, hrow, rfl⟩ :=
    row.exists_behind_nthForm Laid.source shell.atom_of_mem_closerTokens m hm
  obtain ⟨-, ⟨hv, -⟩, -⟩ := hi.of_behind hrow
  have hfront := (Row.all_of_behind (hrow ▸ hi.valid)).1
  have hsource := Row.nthForm_behind Laid.source p form rest shell.closerTokens front
  have hfinal := Row.nthForm_behind Laid.final p form rest shell.closerTokens front
  rw [← hrow] at hsource hfinal
  rw [hm] at hsource
  obtain ⟨rfl, hform⟩ := Prod.mk.inj (Option.some.inj hsource)
  have hahead : shell.openerTokens.flatMap Token.characters ++
      (itemTokens Laid.source front ++ gapTokens p.source).flatMap Token.characters =
        sourceText (shell.openerPieces ++ itemPieces front ++ [.inr p]) := by
    rw [List.flatMap_append, characters_itemTokens hfront, hv.characters_gapTokens,
      shell.characters_openerTokens, sourceText_append, sourceText_append, List.append_assoc]
  have hothers := (Shell.nthForm_enclose shell front.length (row.map Laid.final).tokens).trans
    (congrArg (Option.map _) hfinal)
  rw [hahead]
  exact ⟨form, _, _, hi.stands_form hrow, hform.symm, hothers⟩

/-- The same for what a quote mark quotes. -/
theorem Form.Stands.exists_stands_quoted {p : Laid} {form : Form Laid}
    (hs : (Form.quoted p form).Stands whole before isBindings) {n : Nat}
    (h : nthForm n (.char quoteMark :: (gapTokens p.source ++ [(form.map Laid.source).token])) =
      some (after, .aggregate kind children)) :
    ∃ others, form.Stands whole (before ++ after) false ∧
      (form.map Laid.source).token = .aggregate kind children ∧
        nthForm n (.char quoteMark :: (gapTokens p.final ++ [(form.map Laid.final).token])) =
          some (others, (form.map Laid.final).token) := by
  have hmark : (Token.char quoteMark).isWhitespace = false := rfl
  have hone : ∀ (gap : Gap) (t : Token), t.isWhitespace = false →
      nthForm 1 (.char quoteMark :: (gapTokens gap ++ [t])) =
        some ([quoteMark] ++ (gapTokens gap).flatMap Token.characters, t) := by
    intro gap t ht
    rw [nthForm_cons_succ hmark, nthForm_gap, nthForm_cons_zero ht]
    simp [putBefore]
  rcases n with _ | _ | n
  · cases h
  · rw [hone _ _ (isWhitespace_form _)] at h
    obtain ⟨rfl, hform⟩ := Prod.mk.inj (Option.some.inj h)
    have hright := StandsAt.right [.inl .quote, .inr p] form.pieces hs.stands
    have hahead : [quoteMark] ++ (gapTokens p.source).flatMap Token.characters =
        sourceText [.inl .quote, .inr p] := by
      rw [hs.valid.1.characters_gapTokens]
      rfl
    rw [hahead]
    exact ⟨_, ⟨hright, hs.placed.2, hs.valid.2, hs.matched⟩, hform,
      hone _ _ (isWhitespace_form _)⟩
  · rw [nthForm_cons_succ hmark, nthForm_gap, nthForm_cons_succ (isWhitespace_form _)] at h
    cases h

/--
**A path to an aggregate with forms in it** leads to the inside of a row, and in the tree
that the passes have made it leads to the same row.
-/
theorem Form.Stands.exists_inside (hk : kind = .root ∨ kind = .list ∨ kind = .array) :
    ∀ (path : List Nat) {form : Form Laid} {before after : List Char} {isBindings : Bool},
      form.Stands whole before isBindings →
        locate path (form.map Laid.source).token = some (after, .aggregate kind children) →
          ∃ shell isBindings row others, Inside whole (before ++ after) shell isBindings row ∧
            kind = shell.kind ∧ children = shell.children row ∧
              locate path (form.map Laid.final).token =
                some (others, .aggregate kind (shell.enclose (row.map Laid.final).tokens))
  | [], form, before, after, isBindings, hs, h => by
    obtain ⟨rfl, htoken⟩ := Prod.mk.inj (Option.some.inj h)
    rw [List.append_nil]
    cases form with
    | group b row closed =>
      rw [Form.map, Form.token_group] at htoken
      injection htoken with hkind hchildren
      refine ⟨_, _, row, [], hs.inside, hkind.symm, hchildren.symm, ?_⟩
      rw [Form.map, Form.token_group, ← hkind]
      rfl
    | word | stray => cases htoken
    | str | comment | quoted | bareQuote =>
      injection htoken with hkind
      subst hkind
      simp at hk
  | n :: path, form, before, after, isBindings, hs, h => by
    obtain ⟨outer, ts, ahead, inner, us, later, htoken, hn, hpath, rfl⟩ :=
      exists_nthForm_of_locate_cons h
    rw [← List.append_assoc]
    cases form with
    | word | stray => cases htoken
    | str raw closed =>
      exact absurd hn (not_nthForm_of_atoms fun t ht =>
        (plain_of_mem_stringToken htoken t ht).imp fun _ he => ⟨_, he⟩)
    | comment text =>
      exact absurd hn (not_nthForm_of_atoms fun t ht =>
        (plain_of_mem_commentToken htoken t ht).imp fun _ he => ⟨_, he⟩)
    | bareQuote p =>
      injection htoken with _ hts
      subst hts
      refine absurd hn (not_nthForm_of_atoms (List.forall_mem_cons.mpr ⟨⟨_, _, rfl⟩, ?_⟩))
      exact atom_of_mem_gapTokens _
    | quoted p form =>
      injection htoken with _ hts
      subst hts
      -- the rest of the path leads on from the form that is quoted
      obtain ⟨others, hform, htoken, hfinal⟩ := hs.exists_stands_quoted hn
      rw [← htoken] at hpath
      obtain ⟨shell, isBindings, row, more, hi, hkind, hchildren, hlocate⟩ :=
        hform.exists_inside hk path hpath
      exact ⟨shell, isBindings, row, _, hi, hkind, hchildren, locate_cons hfinal hlocate⟩
    | group b row closed =>
      rw [Form.map, Form.token_group] at htoken
      injection htoken with _ hts
      subst hts
      obtain ⟨form, _, others, hform, htoken, hfinal⟩ := hs.inside.exists_stands hn
      rw [← htoken] at hpath
      obtain ⟨shell, isBindings, row, more, hi, hkind, hchildren, hlocate⟩ :=
        hform.exists_inside hk path hpath
      refine ⟨shell, isBindings, row, others ++ more, hi, hkind, hchildren, ?_⟩
      rw [Form.map, Form.token_group]
      exact locate_cons hfinal hlocate

end

/-! ## The whole tree -/

/-- A laid out row is the inside of the whole text. -/
theorem Row.inside_laid {row : Row (List Blank)} (hm : row.Matched none) :
    Inside row.laid.pieces [] .root false row.laid where
  stands := ⟨[], [], by simp [Shell.openerPieces, Shell.closerPieces], rfl⟩
  placed := by
    have hstart : Reach.start .root false row.laid = .start .root false row := by
      rw [← Reach.start_map .root false Laid.source, map_source_laid, source, Reach.start_map]
    rw [hstart]
    exact placed_laid row
  valid := valid_laid row
  matched := by
    refine (row.laid.matched_map Laid.source none).mp ?_
    rw [map_source_laid]
    exact (row.matched_map ofBlanks none).mpr hm

section
variable {row : Row (List Blank)} {kind : Kind} {children : List Token} {before : List Char}

theorem Row.tree_eq_enclose {γ : Type} (get : γ → Gap) (row : Row γ) :
    (row.map get).tree = .aggregate .root (Shell.root.enclose (row.map get).tokens) :=
  congrArg (Token.aggregate .root) (List.append_nil _).symm

/--
**An aggregate of the source tree that has forms in it** is the inside of a laid out row,
and the same path leads to that row in the tree that the passes have made.
-/
theorem exists_inside_of_locate (hm : row.Matched none)
    (hk : kind = .root ∨ kind = .list ∨ kind = .array) {path : List Nat}
    (h : locate path row.source.tree = some (before, .aggregate kind children)) :
    ∃ shell isBindings inner others, Inside row.laid.pieces before shell isBindings inner ∧
      kind = shell.kind ∧ children = shell.children inner ∧
        locate path (Pass.runAll Pass.standard row.source.tree) =
          some (others, .aggregate kind (shell.enclose (inner.map Laid.final).tokens)) := by
  have hinside := Row.inside_laid hm
  have hsource : row.source.tree = .aggregate .root (Shell.root.children row.laid) := by
    rw [← Row.map_source_laid, Row.tree_eq_enclose]
    rfl
  have hfinal : Pass.runAll Pass.standard row.source.tree =
      .aggregate .root (Shell.root.enclose (row.laid.map Laid.final).tokens) := by
    rw [runAll_standard_sites ((row.matched_map ofBlanks none).mpr hm), ← Row.map_fst_laid,
      Row.map_map, ← Row.tree_eq_enclose]
    rfl
  rw [hfinal]
  rw [hsource] at h
  cases path with
  | nil =>
    obtain ⟨rfl, he⟩ := Prod.mk.inj (Option.some.inj h)
    injection he with hkind hchildren
    subst hkind
    exact ⟨.root, false, row.laid, [], hinside, rfl, hchildren.symm, rfl⟩
  | cons n path =>
    obtain ⟨outer, ts, ahead, kind', us, later, htoken, hn, hpath, rfl⟩ :=
      exists_nthForm_of_locate_cons h
    injection htoken with _ hts
    subst hts
    obtain ⟨form, _, others, hform, htoken, hn⟩ := hinside.exists_stands hn
    rw [← htoken] at hpath
    obtain ⟨shell, isBindings, inner, more, hi, hkind, hchildren, hlocate⟩ :=
      hform.exists_inside hk path hpath
    exact ⟨shell, isBindings, inner, others ++ more, hi, hkind, hchildren, locate_cons hn hlocate⟩

/-- Every aggregate of a tree that has forms in it is given by a row. -/
theorem isRow_of_occurs (hm : row.Matched none)
    (hk : kind = .root ∨ kind = .list ∨ kind = .array)
    (h : Occurs (.aggregate kind children) before row.source.tree) :
    IsRow row.laid.pieces before kind children := by
  obtain ⟨path, hpath⟩ := exists_locate_of_occurs h
  obtain ⟨shell, isBindings, inner, -, hi, hkind, hchildren, -⟩ :=
    exists_inside_of_locate hm hk hpath
  exact ⟨shell, isBindings, inner, hi, hkind, hchildren⟩

end

end ExactLisp.Layout
