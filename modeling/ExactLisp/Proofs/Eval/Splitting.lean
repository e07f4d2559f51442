import ExactLisp.Embedding.Sample
import ExactLisp.Proofs.Datum.Accepting
import ExactLisp.Proofs.Eval.Simulation
import ExactLisp.Proofs.Lexeme.Continued

/-!
# Splitting a program

Two texts that can be read can be put on consecutive lines and read as one: its forms are
those of the first text and then those of the second (`Datum.readForms_append_line`). To
execute it is to execute the first text and, if that succeeds, the second
(`execute_append_line`), but for two things that do not show.

The objects in the second text are made before the first is evaluated instead of afterwards,
so they have other references. And the forms of both are in one sequence, so a text of one
form is evaluated one level deeper. The first is a renaming, for which the partners of the
objects that are made ahead of time are added in the moment when the other run makes them
(`exists_alike_made_early`). The second does not matter, as the bound on the depth does not.
-/

namespace ExactLisp

variable {w : Renaming}

/-! ## Reading -/

namespace Datum

mutual

/-- No string in a form lacks its end. -/
theorem Derives.str_closed {xs : List Lexeme} {d : Datum} (h : Derives xs d) (raw : List Char) :
    .str raw false ∉ xs := by
  match h with
  | .word _ | .str _ => simp
  | .quoted hx => simpa using hx.str_closed raw
  | .list hxs => simpa using hxs.str_closed raw
  | .array hxs => simpa using hxs.str_closed raw

theorem DerivesAll.str_closed {xs : List Lexeme} {ds : List Datum} (h : DerivesAll xs ds)
    (raw : List Char) : .str raw false ∉ xs := by
  match h with
  | .nil => simp
  | .cons hx hxs => simpa using ⟨hx.str_closed raw, hxs.str_closed raw⟩

theorem DerivesElements.str_closed {xs : List Lexeme} {ls : List Literal}
    (h : DerivesElements xs ls) (raw : List Char) : .str raw false ∉ xs := by
  match h with
  | .nil => simp
  | .str _ hs => simpa using hs.str_closed raw
  | .word _ hs => simpa using hs.str_closed raw

end

/-- **Texts on consecutive lines are read one after the other.** -/
theorem readForms_append_line {limit : Nat} {first second : String} {ds es : List Datum}
    (hfirst : readForms limit first = .ok ds) (hsecond : readForms limit second = .ok es) :
    readForms limit (first ++ "\n" ++ second) = .ok (ds ++ es) := by
  obtain ⟨hne, hds, hdepth⟩ := readForms_eq_ok_iff.mp hfirst
  obtain ⟨-, hes, hdepth'⟩ := readForms_eq_ok_iff.mp hsecond
  have hcode : Lexeme.code (first ++ "\n" ++ second) = Lexeme.code first ++ Lexeme.code second := by
    cases Lexeme.continues .engine first with
    | apart _ happart =>
      rw [Lexeme.code, happart, List.filter_append, List.filter_cons_of_neg (by decide)]
      rfl
    | @inStr xs raw _ hscan =>
      -- the string without an end would be a lexeme of the first text
      refine absurd ?_ (hds.str_closed raw)
      rw [Lexeme.code, hscan]
      simp [Lexeme.isSpace]
  refine readForms_eq_ok_iff.mpr ⟨?_, ?_, ?_⟩
  · exact List.append_ne_nil_of_left_ne_nil hne es
  · rw [hcode]
    exact hds.append hes
  · refine depths_le_iff.mpr fun d hd => ?_
    rcases List.mem_append.mp hd with hd | hd
    · exact depths_le_iff.mp hdepth d hd
    · exact depths_le_iff.mp hdepth' d hd

end Datum

/-! ## Making objects -/

/--
Whether a computation does nothing but make objects, so that it depends only on the reference
that the next one gets.
-/
def StoreM.OnlyMakes {α : Type} (m : StoreM α) : Prop :=
  ∀ n : Ref, ∃ (a : α) (k : Ref), n ≤ k ∧
    ∀ s : Store, s.nextRef = n → m.runOn s = (.ok a, { s with nextRef := k })

namespace StoreM.OnlyMakes

variable {α β : Type}

theorem pure (a : α) : (pure a : StoreM α).OnlyMakes :=
  fun n => ⟨a, n, Nat.le_refl _, fun s hs => by subst hs; rfl⟩

theorem fresh : fresh.OnlyMakes :=
  fun n => ⟨n, n + 1, Nat.le_succ _, fun s hs => by subst hs; rfl⟩

theorem bind {m : StoreM α} {f : α → StoreM β} (hm : m.OnlyMakes) (hf : ∀ a, (f a).OnlyMakes) :
    (m >>= f).OnlyMakes := by
  intro n
  obtain ⟨a, mid, hmid, hrun⟩ := hm n
  obtain ⟨b, k, hk, hrun'⟩ := hf a mid
  refine ⟨b, k, Nat.le_trans hmid hk, fun s hs => ?_⟩
  rw [runOn_bind_of_ok (hrun s hs), hrun' { s with nextRef := mid } rfl]

theorem loadLiteral (l : Literal) : (StoreM.loadLiteral l).OnlyMakes := by
  cases l with
  | str s => exact fresh.bind fun _ => .pure _
  | null | bool | number => exact .pure _

theorem loadLiterals : ∀ ls : List Literal, (StoreM.loadLiterals ls).OnlyMakes
  | [] => .pure _
  | l :: rest => (loadLiteral l).bind fun _ => (loadLiterals rest).bind fun _ => .pure _

mutual

theorem load : ∀ d : Datum, (StoreM.load d).OnlyMakes
  | .symbol _ => .pure _
  | .literal l => (loadLiteral l).bind fun _ => .pure _
  | .list items => (loadAll items).bind fun _ => fresh.bind fun _ => .pure _
  | .array elements => (loadLiterals elements).bind fun _ => fresh.bind fun _ => .pure _

theorem loadAll : ∀ ds : List Datum, (StoreM.loadAll ds).OnlyMakes
  | [] => .pure _
  | d :: rest => (load d).bind fun _ => (loadAll rest).bind fun _ => .pure _

end

end StoreM.OnlyMakes

namespace StoreM

/-- Data are loaded one after the other. -/
theorem exists_runOn_loadAll_cons {d : Datum} {ds : List Datum} {s next : Store}
    {forms : List Expr} (h : (loadAll (d :: ds)).runOn s = (.ok forms, next)) :
    ∃ e rest mid, forms = e :: rest ∧ (load d).runOn s = (.ok e, mid) ∧
      (loadAll ds).runOn mid = (.ok rest, next) := by
  obtain ⟨e, mid, hd, hrest⟩ := runOn_bind_eq_ok_iff.mp h
  obtain ⟨rest, far, hds, ⟨⟩⟩ := runOn_bind_eq_ok_iff.mp hrest
  exact ⟨e, rest, mid, rfl, hd, hds⟩

theorem runOn_loadAll_cons {d : Datum} {ds : List Datum} {s mid next : Store} {e : Expr}
    {rest : List Expr} (hd : (load d).runOn s = (.ok e, mid))
    (hds : (loadAll ds).runOn mid = (.ok rest, next)) :
    (loadAll (d :: ds)).runOn s = (.ok (e :: rest), next) := by
  rw [loadAll, runOn_bind_of_ok hd, runOn_bind_of_ok hds, runOn_pure]

theorem runOn_loadAll_append {ds es : List Datum} {s mid next : Store}
    {forms later : List Expr} (hds : (loadAll ds).runOn s = (.ok forms, mid))
    (hes : (loadAll es).runOn mid = (.ok later, next)) :
    (loadAll (ds ++ es)).runOn s = (.ok (forms ++ later), next) := by
  induction ds generalizing s forms with
  | nil =>
    cases hds
    exact hes
  | cons d rest ih =>
    obtain ⟨e, others, there, rfl, hd, hrest⟩ := exists_runOn_loadAll_cons hds
    exact runOn_loadAll_cons hd (ih hrest)

theorem ne_nil_of_runOn_loadAll {ds : List Datum} {s next : Store} {forms : List Expr}
    (h : (loadAll ds).runOn s = (.ok forms, next)) (hne : ds ≠ []) : forms ≠ [] := by
  cases ds with
  | nil => exact absurd rfl hne
  | cons d rest =>
    obtain ⟨e, others, -, rfl, -⟩ := exists_runOn_loadAll_cons h
    exact List.cons_ne_nil e others

end StoreM

/-! ## Programs -/

/-- The one expression that some top-level forms are, as a sequence if there are several. -/
def Expr.ofForms (ref : Ref) : List Expr → Expr
  | [e] => e
  | forms => .list ref (.symbol Datum.sequenceName :: forms)

theorem Expr.ofForms_append (ref : Ref) {forms later : List Expr} (hforms : forms ≠ [])
    (hlater : later ≠ []) : ofForms ref (forms ++ later) =
      .list ref (.symbol Datum.sequenceName :: (forms ++ later)) := by
  match forms, later with
  | [], _ => exact absurd rfl hforms
  | [_], _ :: _ | _ :: _ :: _, _ => rfl
  | _, [] => exact absurd rfl hlater

/-- Read a text and evaluate it, nesting at most `depth` deep. -/
def executeWithin (embedding : Embedding) (depth : Nat) (scope : ScopeId) (text : String) :
    StoreM Expr := do
  evalWithin embedding depth scope (← StoreM.read text)

theorem execute_eq_executeWithin (embedding : Embedding) :
    execute embedding = executeWithin embedding depthBound := rfl

/-- The forms of a text are loaded, and put in a sequence if there are several. -/
theorem exists_runOn_load_ofForms {ds : List Datum} {s next : Store} {forms : List Expr}
    (h : (StoreM.loadAll ds).runOn s = (.ok forms, next)) :
    ∃ ref k, next.nextRef ≤ k ∧ (StoreM.load (Datum.ofForms ds)).runOn s =
      (.ok (Expr.ofForms ref forms), { next with nextRef := k }) := by
  have hsequence : (StoreM.load (.list (.symbol Datum.sequenceName :: ds))).runOn s =
      (.ok (.list next.nextRef (.symbol Datum.sequenceName :: forms)),
        { next with nextRef := next.nextRef + 1 }) := by
    have hname : (StoreM.load (.symbol Datum.sequenceName)).runOn s =
        (.ok (.symbol Datum.sequenceName), s) := rfl
    rw [StoreM.load, StoreM.runOn_bind_of_ok (StoreM.runOn_loadAll_cons hname h)]
    rfl
  match ds with
  | [] =>
    cases h
    exact ⟨s.nextRef, s.nextRef + 1, Nat.le_succ _, hsequence⟩
  | [d] =>
    obtain ⟨e, rest, mid, rfl, hd, hrest⟩ := StoreM.exists_runOn_loadAll_cons h
    cases hrest
    exact ⟨0, _, Nat.le_refl _, hd⟩
  | d :: f :: ds =>
    obtain ⟨e, rest, mid, rfl, -, hrest⟩ := StoreM.exists_runOn_loadAll_cons h
    obtain ⟨g, others, -, rfl, -, -⟩ := StoreM.exists_runOn_loadAll_cons hrest
    exact ⟨next.nextRef, next.nextRef + 1, Nat.le_succ _, hsequence⟩

/-- A text that can be read is executed by evaluating its forms. -/
theorem exists_runOn_executeWithin {text : String} {ds : List Datum} {s next : Store}
    {forms : List Expr} (hds : Datum.readForms Datum.defaultLimit text = .ok ds)
    (hforms : (StoreM.loadAll ds).runOn s = (.ok forms, next)) :
    ∃ ref k, next.nextRef ≤ k ∧ ∀ embedding depth scope,
      (executeWithin embedding depth scope text).runOn s =
        (evalWithin embedding depth scope (Expr.ofForms ref forms)).runOn
          { next with nextRef := k } := by
  obtain ⟨ref, k, hk, hload⟩ := exists_runOn_load_ofForms hforms
  refine ⟨ref, k, hk, fun embedding depth scope => ?_⟩
  have hread : StoreM.read text = StoreM.load (Datum.ofForms ds) := by
    rw [StoreM.read, Datum.read, Datum.readWithin, hds]
  rw [executeWithin, hread, StoreM.runOn_bind_of_ok hload]

namespace Evaluator

/-- Forms in a row are evaluated in two parts. -/
theorem evalSequence_append (ev : Evaluator) (scope : ScopeId) {later : List Expr}
    (hlater : later ≠ []) : ∀ {forms : List Expr}, forms ≠ [] →
      ev.evalSequence scope (forms ++ later) =
        ev.evalSequence scope forms >>= fun _ => ev.evalSequence scope later
  | [], h => absurd rfl h
  | [e], _ => by
    cases later with
    | nil => exact absurd rfl hlater
    | cons f rest => rfl
  | e :: f :: rest, _ => by
    change ev.eval scope e >>= (fun _ => ev.evalSequence scope (f :: rest ++ later)) =
      (ev.eval scope e >>= fun _ => ev.evalSequence scope (f :: rest)) >>=
        fun _ => ev.evalSequence scope later
    rw [evalSequence_append ev scope hlater (List.cons_ne_nil f rest), bind_assoc]

end Evaluator

/-! ## One level more -/

section

variable {embedding : Embedding}

theorem evalWithin_sequence (embedding : Embedding) (depth : Nat) (scope : ScopeId) (ref : Ref)
    (forms : List Expr) :
    evalWithin embedding (depth + 1) scope (.list ref (.symbol Datum.sequenceName :: forms)) =
      Evaluator.evalSequence ⟨evalWithin embedding depth, invokeWithin embedding depth⟩ scope
        forms := rfl

/-- A program ends like its forms in a row, where it may nest one level deeper. -/
theorem sequence_simulates_program (h : embedding.Uniform) (depth : Nat) (scope : ScopeId)
    (ref : Ref) {forms forms' : List Expr} (hforms : Expr.RenamesAll w forms forms') :
    (Evaluator.evalSequence ⟨evalWithin embedding depth, invokeWithin embedding depth⟩ scope
      forms).Simulates w (evalWithin embedding (depth + 1) scope (Expr.ofForms ref forms'))
        Expr.Renames := by
  have hev := simulates_within h (Nat.le_refl depth)
  match hforms with
  | .nil => exact hev.evalSequence scope .nil
  | .cons he .nil => exact (simulates_within h (Nat.le_succ depth)).eval w scope _ _ he
  | .cons he (.cons hf hrest) => exact hev.evalSequence scope (.cons he (.cons hf hrest))

/-- The forms of a program in a row end like the program. -/
theorem program_simulates_sequence (h : embedding.Uniform) (depth : Nat) (scope : ScopeId)
    (ref : Ref) {forms forms' : List Expr} (hforms : Expr.RenamesAll w forms forms') :
    (evalWithin embedding depth scope (Expr.ofForms ref forms)).Simulates w
      (Evaluator.evalSequence ⟨evalWithin embedding depth, invokeWithin embedding depth⟩ scope
        forms') Expr.Renames := by
  cases depth with
  | zero => exact .exhausted
  | succ depth =>
    have hev := simulates_within h (Nat.le_succ depth)
    match hforms with
    | .nil => exact hev.evalSequence scope .nil
    | .cons he .nil => exact (simulates_within h (Nat.le_refl (depth + 1))).eval w scope _ _ he
    | .cons he (.cons hf hrest) => exact hev.evalSequence scope (.cons he (.cons hf hrest))

/-- Executing a text leaves a sound store behind. -/
theorem Store.Sound.executeWithin (h : embedding.Uniform) {s : Store} (hs : s.Sound) (depth : Nat)
    (scope : ScopeId) (text : String)
    (hend : ((executeWithin embedding depth scope text).runOn s).1 ≠ .error .exhausted) :
    ((executeWithin embedding depth scope text).runOn s).2.Sound := by
  have hself : (ExactLisp.executeWithin embedding depth scope text).Simulates (.below s.nextRef)
      (ExactLisp.executeWithin embedding depth scope text) Expr.Renames :=
    (StoreM.Simulates.read text).bind fun w' _ e e' he =>
      (simulates_within h (Nat.le_refl depth)).eval w' scope e e' he
  exact hs.runOn hself hend

end

/-! ## Objects that are made ahead of time -/

/-- A store with nothing in it that hands out references from a given one on. -/
def Store.startingAt (n : Ref) : Store := { Store.empty with nextRef := n }

theorem Store.alike_startingAt (n k : Ref) :
    (startingAt n).Alike (.none n k) (startingAt k) where
  left := rfl
  right := rfl
  size := rfl
  cells := rfl
  live _ := rfl
  parent _ := rfl
  bindings i name := by
    have hnone : ∀ j : Ref, ((startingAt j).ownBindings i)[name]? = none := fun j => by
      simp [ownBindings, startingAt, empty]
    rw [hnone, hnone]
    exact .none

/--
**Objects that one run makes ahead of time** get their partners when the other run makes
them. Until then they have none: they are not among the objects that there were when both
runs set out, and later pairs are of objects that are new in both.
-/
theorem exists_alike_made_early {w v : Renaming} {n m : Ref} {ds : List Datum}
    {early : List Expr} {t t' : Store} (hn : ∀ a b, w.rel a b → a < n) (hm : m ≤ w.left)
    (hearly : ∀ s : Store, s.nextRef = n →
      (StoreM.loadAll ds).runOn s = (.ok early, { s with nextRef := m }))
    (hv : w ≤ v) (ht : t.Alike v t') :
    ∃ late mid, (StoreM.loadAll ds).runOn t' = (.ok late, { t' with nextRef := mid }) ∧
      ∀ k, mid ≤ k → ∃ u : Renaming, (∀ a b, v.rel a b → u.rel a b) ∧
        Expr.RenamesAll u early late ∧ t.Alike u { t' with nextRef := k } := by
  obtain ⟨late, mid, hmid, hlate⟩ := StoreM.OnlyMakes.loadAll ds t'.nextRef
  refine ⟨late, mid, hlate t' rfl, fun k hk => ?_⟩
  -- loading does not look at the store, so it may as well start where nothing has a partner
  have hload := StoreM.Simulates.loadAll ds _ _ (Store.alike_startingAt n t'.nextRef)
  rw [hearly (Store.startingAt n) rfl, hlate (Store.startingAt t'.nextRef) rfl] at hload
  cases hload with
  | @ok x _ _ _ _ hx hforms hloaded =>
    have hleft : m = x.left := hloaded.left
    have hright : mid = x.right := hloaded.right
    have hmv : m ≤ v.left := Nat.le_trans hm hv.left
    have hdisjoint : ∀ {a b c d}, v.rel a b → x.rel c d → a ≠ c ∧ b ≠ d := by
      intro a b c d hab hcd
      have hnew : n ≤ c ∧ t'.nextRef ≤ d := (hx.new hcd).resolve_left id
      have hc : c < m := hleft ▸ (x.lt hcd).1
      have hb : b < t'.nextRef := ht.right ▸ (v.lt hab).2
      refine ⟨?_, Nat.ne_of_lt (Nat.lt_of_lt_of_le hb hnew.2)⟩
      -- old objects come before those made ahead of time, and later ones after them
      rcases hv.new hab with hold | ⟨ha, -⟩
      · exact Nat.ne_of_lt (Nat.lt_of_lt_of_le (hn a b hold) hnew.1)
      · exact Nat.ne_of_gt (Nat.lt_of_lt_of_le hc (Nat.le_trans hm ha))
    have hgrown : v.left ≤ v.left ∧ v.right ≤ k :=
      ⟨Nat.le_refl _, ht.right ▸ Nat.le_trans hmid hk⟩
    have hmade : x.left ≤ v.left ∧ x.right ≤ k := ⟨hleft ▸ hmv, hright ▸ hk⟩
    exact ⟨v.join x hgrown hmade hdisjoint, fun a b hab => Or.inl hab, hforms.mono Or.inr,
      ht.mono _ Or.inl (by rw [Renaming.join, ← ht.left]) rfl⟩

section

variable {embedding : Embedding} {second : String} {es : List Datum} {n m : Ref}
  {early : List Expr} {x x' : StoreM Expr}

/-- What two runs have in common when the second text is executed, early on the left side. -/
theorem together_endsAlike (h : embedding.Uniform)
    (hsecond : Datum.readForms Datum.defaultLimit second = .ok es)
    (hearly : ∀ s : Store, s.nextRef = n →
      (StoreM.loadAll es).runOn s = (.ok early, { s with nextRef := m }))
    {s s' : Store} (hs : s.Alike w s') (hn : ∀ a b, w.rel a b → a < n) (hm : m ≤ w.left)
    (hx : x.Simulates w x' Expr.Renames) (depth : Nat) (scope : ScopeId) :
    EndsAlike (fun v => ∀ a b, w.rel a b → v.rel a b) Expr.Renames
      ((do
        let _ ← x
        Evaluator.evalSequence ⟨evalWithin embedding depth, invokeWithin embedding depth⟩ scope
          early).runOn s)
      ((do
        let _ ← x'
        executeWithin embedding (depth + 1) scope second).runOn s') := by
  refine (hx s s' hs).bind (fun v hv a b => hv.rel) fun v _ _ t t' hv _ ht => ?_
  obtain ⟨late, mid, hlate, hpartners⟩ := exists_alike_made_early hn hm hearly hv ht
  obtain ⟨ref, k, hk, hrun⟩ := exists_runOn_executeWithin hsecond hlate
  obtain ⟨u, hu, hforms, ht⟩ := hpartners k hk
  rw [hrun]
  exact (sequence_simulates_program h depth scope ref hforms t _ ht).imp
    fun v' hv' a b hab => hv'.rel (hu a b (hv.rel hab))

/-- The same with the roles of the two runs exchanged. -/
theorem separately_endsAlike (h : embedding.Uniform)
    (hsecond : Datum.readForms Datum.defaultLimit second = .ok es)
    (hearly : ∀ s : Store, s.nextRef = n →
      (StoreM.loadAll es).runOn s = (.ok early, { s with nextRef := m }))
    {s s' : Store} (hs : s.Alike w s') (hn : ∀ a b, w.rel a b → b < n) (hm : m ≤ w.right)
    (hx : x.Simulates w x' Expr.Renames) (depth : Nat) (scope : ScopeId) :
    EndsAlike (fun v => ∀ a b, w.rel a b → v.rel a b) Expr.Renames
      ((do
        let _ ← x
        executeWithin embedding depth scope second).runOn s)
      ((do
        let _ ← x'
        Evaluator.evalSequence ⟨evalWithin embedding depth, invokeWithin embedding depth⟩ scope
          early).runOn s') := by
  refine (hx s s' hs).bind (fun v hv a b => hv.rel) fun v _ _ t t' hv _ ht => ?_
  obtain ⟨late, mid, hlate, hpartners⟩ := exists_alike_made_early (w := w.symm)
    (fun a b hab => hn b a hab) hm hearly (Renaming.extends_symm hv) ht.symm
  obtain ⟨ref, k, hk, hrun⟩ := exists_runOn_executeWithin hsecond hlate
  obtain ⟨u, hu, hforms, ht⟩ := hpartners k hk
  rw [hrun]
  exact (program_simulates_sequence h depth scope ref hforms.symm _ t' ht.symm).imp
    fun v' hv' a b hab => hv'.rel (hu b a (hv.rel hab))

end

/-! ## The two ways of executing two texts -/

/-- The forms of a text that are loaded into a store, and what they are to themselves. -/
theorem Store.Sound.exists_loaded {s : Store} (hs : s.Sound) (ds : List Datum) :
    ∃ forms n w, (StoreM.loadAll ds).runOn s = (.ok forms, { s with nextRef := n }) ∧
      (∀ ref < s.nextRef, w.rel ref ref) ∧ w.left = n ∧ w.right = n ∧
      Expr.RenamesAll w forms forms ∧
      Store.Alike w { s with nextRef := n } { s with nextRef := n } := by
  obtain ⟨forms, n, -, hforms⟩ := StoreM.OnlyMakes.loadAll ds s.nextRef
  have hload := hforms s rfl
  have hself := StoreM.Simulates.loadAll ds s s hs
  rw [hload] at hself
  cases hself with
  | @ok w _ _ _ _ hw halike hloaded =>
    exact ⟨forms, n, w, hload, fun ref href => hw.rel ⟨rfl, href⟩, hloaded.left.symm,
      hloaded.right.symm, halike, hloaded⟩

/-- Two texts on consecutive lines are executed like their forms in a row. -/
theorem exists_runOn_together {first second : String} {ds es : List Datum}
    (hds : Datum.readForms Datum.defaultLimit first = .ok ds)
    (hes : Datum.readForms Datum.defaultLimit second = .ok es) {s : Store} {n m : Ref}
    {forms early : List Expr}
    (hload : (StoreM.loadAll ds).runOn s = (.ok forms, { s with nextRef := n }))
    (hearly : (StoreM.loadAll es).runOn { s with nextRef := n } =
      (.ok early, { s with nextRef := m })) :
    ∃ k, m ≤ k ∧ ∀ embedding scope,
      (executeWithin embedding 0 scope (first ++ "\n" ++ second)).runOn s =
        (.error .exhausted, { s with nextRef := k }) ∧
      ∀ depth, (executeWithin embedding (depth + 1) scope (first ++ "\n" ++ second)).runOn s =
        (do
          let _ ← Evaluator.evalSequence
            ⟨evalWithin embedding depth, invokeWithin embedding depth⟩ scope forms
          Evaluator.evalSequence ⟨evalWithin embedding depth, invokeWithin embedding depth⟩
            scope early).runOn { s with nextRef := k } := by
  have hne := StoreM.ne_nil_of_runOn_loadAll hload (Datum.readForms_eq_ok_iff.mp hds).1
  have hearlyNe := StoreM.ne_nil_of_runOn_loadAll hearly (Datum.readForms_eq_ok_iff.mp hes).1
  obtain ⟨ref, k, hk, hboth⟩ := exists_runOn_executeWithin (Datum.readForms_append_line hds hes)
    (StoreM.runOn_loadAll_append hload hearly)
  refine ⟨k, hk, fun embedding scope => ⟨hboth embedding 0 scope, fun depth => ?_⟩⟩
  rw [hboth, Expr.ofForms_append ref hne hearlyNe, evalWithin_sequence,
    Evaluator.evalSequence_append _ scope hearlyNe hne]

/-- Two texts are executed separately, once the forms of the first have been loaded. -/
theorem exists_runOn_separately {first : String} {ds : List Datum}
    (hds : Datum.readForms Datum.defaultLimit first = .ok ds) (second : String) {s : Store}
    {n : Ref} {forms : List Expr}
    (hload : (StoreM.loadAll ds).runOn s = (.ok forms, { s with nextRef := n })) :
    ∃ ref k, n ≤ k ∧ ∀ embedding depth scope,
      (do
        let _ ← executeWithin embedding depth scope first
        executeWithin embedding depth scope second).runOn s =
      (do
        let _ ← evalWithin embedding depth scope (Expr.ofForms ref forms)
        executeWithin embedding depth scope second).runOn { s with nextRef := k } := by
  obtain ⟨ref, k, hk, hfirst⟩ := exists_runOn_executeWithin hds hload
  refine ⟨ref, k, hk, fun embedding depth scope => ?_⟩
  rw [StoreM.runOn_bind, hfirst, ← StoreM.runOn_bind]

/--
**Splitting a program changes nothing.** Two texts that can be read are executed on
consecutive lines like the first and then, if that succeeds, the second. If the one way of
executing them ends, then so does the other, with the same error or the same value, and with
the same effect on the store, but for the names of objects that were made along the way. The
bound on the depth has to be one greater where the program is not split.
-/
theorem execute_append_line {embedding : Embedding} (h : embedding.Uniform)
    {first second : String} {d e : Datum} (hfirst : Datum.read first = .ok d)
    (hsecond : Datum.read second = .ok e) {s : Store} (hs : s.Sound) (scope : ScopeId) :
    let together (depth : Nat) := executeWithin embedding depth scope (first ++ "\n" ++ second)
    let separately (depth : Nat) : StoreM Expr := do
      let _ ← executeWithin embedding depth scope first
      executeWithin embedding depth scope second
    let Same := EndsAlike (fun w => ∀ ref < s.nextRef, w.rel ref ref) Expr.Renames
    Same ((execute embedding scope (first ++ "\n" ++ second)).runOn s)
        ((do
          let _ ← execute embedding scope first
          execute embedding scope second).runOn s) ∧
      ∀ depth, Same ((together depth).runOn s) ((separately depth).runOn s) ∧
        Same ((separately depth).runOn s) ((together (depth + 1)).runOn s) := by
  intro together separately Same
  obtain ⟨ds, hds, rfl⟩ := Datum.readWithin_eq_ok.mp hfirst
  obtain ⟨es, hes, rfl⟩ := Datum.readWithin_eq_ok.mp hsecond
  obtain ⟨forms, n, w, hload, hold, hleft, hright, hforms, hloaded⟩ := hs.exists_loaded ds
  obtain ⟨early, m, hm, hearly⟩ := StoreM.OnlyMakes.loadAll es n
  -- evaluation sets out in stores that differ only in the reference that comes next
  obtain ⟨k, hk, htogether⟩ :=
    exists_runOn_together hds hes hload (hearly { s with nextRef := n } rfl)
  obtain ⟨ref', k', hk', hseparately⟩ := exists_runOn_separately hds second hload
  have hwide : n ≤ k := Nat.le_trans hm hk
  have hsplit : ∀ depth, Same ((together depth).runOn s) ((separately depth).runOn s) := by
    intro depth
    cases depth with
    | zero =>
      rw [(htogether embedding scope).1]
      exact .exhausted
    | succ depth =>
      have hl : w.left ≤ k := hleft ▸ hwide
      have hr : w.right ≤ k' := hright ▸ hk'
      have hrun := together_endsAlike h hes hearly (hloaded.widen hl hr)
        (fun a b hab => hleft ▸ (w.lt hab).1) hk
        (sequence_simulates_program h depth scope ref' (hforms.widen hl hr)) depth scope
      rw [(htogether embedding scope).2, hseparately]
      exact hrun.imp fun v hv ref href => hv ref ref (hold ref href)
  rw [execute_eq_executeWithin]
  refine ⟨hsplit depthBound, fun depth => ⟨hsplit depth, ?_⟩⟩
  have hl : w.left ≤ k' := hleft ▸ hk'
  have hr : w.right ≤ k := hright ▸ hwide
  have hrun := separately_endsAlike h hes hearly (hloaded.widen hl hr)
    (fun a b hab => hright ▸ (w.lt hab).2) hk
    (program_simulates_sequence h depth scope ref' (hforms.widen hl hr)) depth scope
  rw [(htogether embedding scope).2, hseparately]
  exact hrun.imp fun v hv ref href => hv ref ref (hold ref href)

/--
For instance a definition and a call of what it defines through an operation of the embedding
program, in a new default environment.
-/
theorem execute_append_line_call :
    let embedding : Embedding := { Embedding.nothing with natives := [Sample.call1] }
    let s : Store := (Store.empty.newEnvironment .nothing .defaults).2
    let first := "(def f (lambda (x) (list x 'f)))"
    let second := "(call1 f '(f))"
    let Same := EndsAlike (fun w => ∀ ref < s.nextRef, w.rel ref ref) Expr.Renames
    (embedding.Uniform ∧ s.Sound ∧ (∃ d, Datum.read first = .ok d) ∧
      ∃ e, Datum.read second = .ok e) ∧
      Same ((execute embedding 0 (first ++ "\n" ++ second)).runOn s)
        ((do
          let _ ← execute embedding 0 first
          execute embedding 0 second).runOn s) := by
  intro embedding s first second Same
  have huniform : embedding.Uniform := by
    refine ⟨List.forall_mem_singleton.mpr fun invoke invoke' hinvoke w args args' hargs => ?_,
      List.forall_mem_nil _⟩
    match hargs with
    | .nil => exact .fail rfl
    | .cons _ .nil => exact .fail rfl
    | .cons hf (.cons ha (.cons hb hrest)) =>
      exact Evaluator.Simulates.failArity _ (.cons hf (.cons ha (.cons hb hrest)))
    | .cons hf (.cons ha .nil) =>
      exact (StoreM.Simulates.ofExcept hf.asFunction).bind fun w' hw _ _ hf =>
        hinvoke w' _ _ _ _ hf (.cons (ha.mono hw.rel) .nil)
  have hsound : s.Sound := Store.sound_empty.newEnvironment .nothing nofun
  have hread : (Datum.read first).isOk = true ∧ (Datum.read second).isOk = true := by decide
  cases hd : Datum.read first with
  | error fault => simp [hd, Except.isOk, Except.toBool] at hread
  | ok d =>
    cases he : Datum.read second with
    | error fault => simp [he, Except.isOk, Except.toBool] at hread
    | ok e =>
      exact ⟨⟨huniform, hsound, ⟨d, rfl⟩, e, rfl⟩,
        (execute_append_line huniform hd he hsound 0).1⟩

end ExactLisp
