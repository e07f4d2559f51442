import ExactLisp.Proofs.Eval.Sessions

/-!
# Reserved names

Nothing is ever bound to null, true or false. Only a definition checks this. A `let*` form
and the call of a closure bind the names that stand in their forms without asking. What keeps
them from binding a reserved name is that no symbol has one: the reader makes a literal of
such a word, and everything in a session is made of what was read (`reserved_never_bound`).
-/

namespace ExactLisp

namespace Expr

/-- Whether a value is somewhere in another one: as an item of a list, or in a closure's body. -/
inductive Within (part : Expr) : Expr → Prop
  | self : Within part part
  | item {ref : Ref} {items : List Expr} {e : Expr} :
    e ∈ items → Within part e → Within part (.list ref items)
  | body {ref : Ref} {params : List String} {body : List Expr} {scope : ScopeId} {e : Expr} :
    e ∈ body → Within part e → Within part (.closure ref params body scope)

/--
Whether no symbol in a value has a reserved name, and every closure has distinct parameters
none of which is reserved.
-/
structure Unreserved (value : Expr) : Prop where
  symbol : ∀ name, Within (.symbol name) value → name ∉ reservedNames
  params : ∀ ref params body scope, Within (.closure ref params body scope) value →
    params.Nodup ∧ ∀ name ∈ params, name ∉ reservedNames

/-- What is in a value is as required if the value is. -/
theorem Within.meets {r : Requirement} {part e : Expr} (h : Within part e) (he : e.Meets r) :
    part.Meets r := by
  induction h with
  | self => exact he
  | item hmem _ ih => exact ih (meetsAll_iff.mp he _ hmem)
  | body hmem _ ih => exact ih (meetsAll_iff.mp he.2 _ hmem)

end Expr

/-- The requirement that no name is reserved. Functions of the embedding program are ruled out. -/
def Requirement.unreserved : Requirement where
  name name := name ∉ reservedNames
  number _ := True
  params params := params.Nodup ∧ ∀ name ∈ params, name ∉ reservedNames
  native f := ∀ key, f.code ≠ .embedded key
  host _ := False
  error _ := True

namespace Requirement

/-- A word that is read as a symbol is none of the reserved names. -/
theorem ofWord_meets_unreserved (w : List Char) : (Datum.ofWord w).Meets unreserved := by
  unfold Datum.ofWord
  split
  · exact trivial
  split
  · exact trivial
  split
  · exact trivial
  split
  · exact trivial
  next hnull htrue hfalse =>
    intro hreserved
    have hcases : String.ofList w = "null" ∨ String.ofList w = "true" ∨
        String.ofList w = "false" := by
      simpa [reservedNames] using hreserved
    rcases hcases with h | h | h
    · exact hnull (by rw [← h, String.toList_ofList])
    · exact htrue (by rw [← h, String.toList_ofList])
    · exact hfalse (by rw [← h, String.toList_ofList])

theorem stable_unreserved (embedding : Embedding) : unreserved.Stable embedding where
  word := ofWord_meets_unreserved
  quote := (by decide : Datum.quoteName ∉ reservedNames)
  sequence := (by decide : Datum.sequenceName ∉ reservedNames)
  reduced _ := trivial
  params _ hnodup hnames := ⟨hnodup, hnames⟩
  param _ hparams := hparams.2
  raised _ _ := trivial
  located _ _ _ _ := trivial
  embedded _ key hf hcode := absurd hcode (hf key)
  hosted _ hf := hf.elim
  returned _ _ := trivial

theorem standard_unreserved : unreserved.Standard where
  name _ hname := hname
  builtin _ _ := nofun
  eval _ _ := nofun
  exec _ _ := nofun

end Requirement

theorem Expr.Meets.unreserved {e : Expr} (h : e.Meets .unreserved) : e.Unreserved where
  symbol _ hwithin := hwithin.meets h
  params _ _ _ _ hwithin := (hwithin.meets h).1

/-- Whether no reserved name is bound, and none is in anything that a session holds. -/
structure Session.Unreserved (session : Session) : Prop where
  bound : ∀ scope name value, (session.store.ownBindings scope)[name]? = some value →
    name ∉ reservedNames ∧ value.Unreserved
  held : ∀ value, session.held = some value → value.Unreserved

/--
**Reserved names are never bound.** Whatever is asked of a session that starts from an empty
environment or from the default one, no scope binds a reserved name, and in all values that
are bound, kept aside or answered no symbol has one, and every closure has distinct parameters
that are not reserved.
-/
theorem reserved_never_bound (embedding : Embedding) {kind : Store.Starting}
    (hkind : kind ≠ .embedded) {commands : List Command}
    (hcommands : ∀ command ∈ commands, command ≠ .restart .embedded) :
    let run := (Session.start embedding .empty none kind).runAll embedding commands
    run.2.Unreserved ∧ ∀ answer ∈ run.1, ∀ value, answer.Returns value → value.Unreserved := by
  have hstart := Session.meets_start Requirement.standard_unreserved embedding hkind
  obtain ⟨hsession, hanswers⟩ := Session.meets_runAll (Requirement.stable_unreserved embedding)
    Requirement.standard_unreserved hstart hcommands
  refine ⟨⟨fun scope name value hfound => ?_, fun value hvalue => ?_⟩,
    fun answer hanswer value hvalue => ?_⟩
  · obtain ⟨hname, hmeets⟩ := hsession.store scope name value hfound
    exact ⟨hname, hmeets.unreserved⟩
  · exact (hsession.held value hvalue).unreserved
  · exact (hanswers answer hanswer value hvalue).unreserved

/--
For instance when forms that bind without a check are given reserved names: a `let*` form, a
closure, and a list of forms that is put together and evaluated.
-/
theorem reserved_never_bound_unchecked :
    let commands : List Command :=
      [.enterChild, .execute "(let* ((true 1)) true)", .execute "((lambda (null) null) 2)",
        .execute "(eval (list 'let* (list (list 'false 3)) 'false))", .define "x" "'(null x)",
        .addAlias "x" "true", .call "eval" ["(car x)"]]
    let run := (Session.start .nothing .empty none .defaults).runAll .nothing commands
    (Store.Starting.defaults ≠ .embedded ∧
      ∀ command ∈ commands, command ≠ .restart .embedded) ∧
      run.2.Unreserved ∧ ∀ answer ∈ run.1, ∀ value, answer.Returns value → value.Unreserved := by
  intro commands run
  have hkind : Store.Starting.defaults ≠ .embedded := nofun
  have hcommands : ∀ command ∈ commands, command ≠ .restart .embedded := by
    simp [commands]
  exact ⟨⟨hkind, hcommands⟩, reserved_never_bound .nothing hkind hcommands⟩

end ExactLisp
