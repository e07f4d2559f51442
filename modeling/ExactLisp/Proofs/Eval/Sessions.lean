import ExactLisp.Proofs.Eval.Upheld

/-!
# What a session upholds

A session holds what it has read, the functions that an environment starts with, and what
evaluation makes of these. So a requirement that evaluation upholds is met by all that is
bound, kept aside or answered in a session, if it is met by the functions that environments
start with and by every name that may be bound (`Session.meets_runBy`, `Session.meets_runAllBy`).

Environments of the language itself, bare ones and ones with the built-in functions, need no
more than that. Of what the embedding program binds in its own environments it has to be known
that it is as required (`Requirement.Starts`).
-/

namespace ExactLisp

variable {r : Requirement} {embedding : Embedding}

/-! ## New environments -/

/-- Whether what environments start with is as required, and every name that may be bound. -/
structure Requirement.Standard (r : Requirement) : Prop where
  name : ∀ name, name ∉ reservedNames → r.name name
  builtin : ∀ b, r.native (Store.builtinNative b)
  eval : ∀ scope, r.native (Store.evalNative scope)
  exec : ∀ scope, r.native (Store.execNative scope)

/-- Whether a kind of environment starts with what is as required, if the store before it is. -/
def Requirement.Starts (r : Requirement) (embedding : Embedding) (kind : Store.Starting) : Prop :=
  kind = .embedded → ∀ scope s, s.Meets r → (embedding.install scope s).Meets r

/-- The environments of the language itself start with what is as required. -/
theorem Requirement.starts_of_ne {kind : Store.Starting} (hkind : kind ≠ .embedded) :
    r.Starts embedding kind :=
  fun heq => absurd heq hkind

namespace Store

theorem meets_registerNative {s : Store} (h : s.Meets r) (scope : ScopeId) {f : Native}
    (hname : r.name f.name) (hf : r.native f) : (s.registerNative scope f).Meets r :=
  meets_bind (s := s.fresh.2) h hname hf

theorem meets_registerHost {s : Store} (h : s.Meets r) (scope : ScopeId) {name : String}
    {f : HostFunction} (hname : r.name name) (hf : r.host f) :
    (s.registerHost scope name f).Meets r :=
  meets_bind (s := s.fresh.2) h hname hf

/-- No built-in function has a reserved name. -/
theorem name_notMem_reservedNames (b : Builtin) : b.name ∉ reservedNames := by
  cases b <;> decide

theorem meets_registerBuiltins (hr : r.Standard) (scope : ScopeId) :
    ∀ {s : Store} (bs : List Builtin), s.Meets r →
      (bs.foldl (fun s b => s.registerNative scope (builtinNative b)) s).Meets r
  | _, [], h => h
  | _, b :: rest, h => meets_registerBuiltins hr scope rest
    (meets_registerNative h scope (hr.name b.name (name_notMem_reservedNames b)) (hr.builtin b))

theorem meets_of_addAlias {s next : Store} (h : s.Meets r) (hr : r.Standard) {scope : ScopeId}
    {source target : String} (halias : s.addAlias scope source target = .ok next) :
    next.Meets r := by
  rw [addAlias] at halias
  split at halias
  next value hget =>
    rw [define] at halias
    split at halias
    · cases halias
    next hname =>
      cases halias
      exact meets_bind h (hr.name target hname) (meets_of_get h hget)
  · cases halias

/-- There is no alias of what is not bound, and none that is reserved. -/
theorem addAlias_eq_error {s : Store} {scope : ScopeId} {source target : String} {e : Error}
    (halias : s.addAlias scope source target = .error e) :
    e = .undefinedSymbol source ∨ e = .reservedName target := by
  rw [addAlias] at halias
  split at halias
  · rw [define] at halias
    split at halias <;> cases halias
    exact Or.inr rfl
  next hget =>
    cases halias
    rw [get] at hget
    split at hget <;> cases hget
    exact Or.inl rfl

theorem meets_installDefaults {s : Store} (h : s.Meets r) (hr : r.Standard) (scope : ScopeId) :
    (s.installDefaults scope).Meets r := by
  have hbuiltins := meets_registerBuiltins hr scope Builtin.all h
  have heval := meets_registerNative hbuiltins scope
    (hr.name "eval" (by decide)) (hr.eval scope)
  have hexec := meets_registerNative heval scope
    (hr.name "exec" (by decide)) (hr.exec scope)
  rw [installDefaults]
  split
  next halias => exact meets_of_addAlias hexec hr halias
  · exact hexec

/-- A new environment binds only what is as required. -/
theorem meets_newEnvironment {s : Store} (h : s.Meets r) (hr : r.Standard) {kind : Starting}
    (hkind : r.Starts embedding kind) : (s.newEnvironment embedding kind).2.Meets r := by
  have hdefaults := meets_installDefaults (meets_newScope h none) hr s.scopes.size
  cases kind with
  | bare => exact meets_newScope h none
  | defaults => exact hdefaults
  | embedded => exact hkind rfl s.scopes.size _ hdefaults

theorem meets_empty : empty.Meets r := by
  intro scope name value hfound
  simp [ownBindings, empty] at hfound

theorem release_meets {s : Store} (h : s.Meets r) (id : ScopeId) : (s.release id).Meets r := by
  have hown : ∀ i, (s.release id).ownBindings i = s.ownBindings i := by
    intro i
    by_cases hi : id = i
    · subst hi
      cases hscope : s.scopes[id]? <;> simp [ownBindings, release, Array.getElem?_modify, hscope]
    · simp [ownBindings, release, Array.getElem?_modify, hi]
  intro scope name value hfound
  rw [hown] at hfound
  exact h scope name value hfound

theorem meets_foldl_release : ∀ {s : Store} (ids : List ScopeId), s.Meets r →
    (ids.foldl release s).Meets r
  | _, [], h => h
  | _, id :: rest, h => meets_foldl_release rest (release_meets h id)

theorem meets_releaseUnheld {s : Store} (h : s.Meets r) (roots : List ScopeId) :
    (s.releaseUnheld roots).Meets r :=
  meets_foldl_release _ h

end Store

/-! ## Commands -/

/-- Whether all that a session holds is as required. -/
structure Session.Meets (r : Requirement) (session : Session) : Prop where
  store : session.store.Meets r
  held : ∀ v, session.held = some v → v.Meets r

/-- The values that are in an answer. -/
inductive Answer.Returns : Answer → Expr → Prop
  | value (v : Expr) : Returns (.value (.ok v)) v
  | inspected (i : Inspection) : Returns (.inspection (.ok i)) i.value
  | hostReturned (i : Inspection) : Returns (.inspection (.ok i)) i.hostReturned
  | evaluatedAgain {i : Inspection} {v : Expr} :
    i.evaluatedAgain = .ok v → Returns (.inspection (.ok i)) v
  | first {i : Inspection} {a : ArrayInspection} {v : Expr} :
    i.array = some a → a.first = some v → Returns (.inspection (.ok i)) v

namespace Session

variable {session : Session} {ev : Evaluator}

/-- Whether what is answered is as required, and what the session then holds. -/
def StepMeets (r : Requirement) (step : Answer × Session) : Prop :=
  step.2.Meets r ∧ ∀ v, step.1.Returns v → v.Meets r

theorem stepMeets_answerValue (hs : session.Meets r) {m : StoreM Expr}
    (hm : m.Upholds r (Expr.Meets r)) : StepMeets r (session.answerValue m) := by
  obtain ⟨hstore, hend⟩ := hm session.store hs.store
  refine ⟨⟨hstore, hs.held⟩, fun v hv => ?_⟩
  change (Answer.value (m.runOn session.store).1).Returns v at hv
  generalize (m.runOn session.store).1 = outcome at hv hend
  cases hv
  exact hend

theorem stepMeets_answerDone (hs : session.Meets r) {m : StoreM Unit}
    (hm : m.Upholds r fun _ => True) : StepMeets r (session.answerDone m) :=
  ⟨⟨(hm session.store hs.store).1, hs.held⟩, nofun⟩

/-- A question about the session changes nothing, and its answer has no values in it. -/
theorem stepMeets_of_asking (hs : session.Meets r) {answer : Answer}
    (h : ∀ v, ¬ answer.Returns v) : StepMeets r (answer, session) :=
  ⟨hs, fun v hv => absurd hv (h v)⟩

theorem upholds_execute (hev : ev.Upholds r) (h : r.Regular embedding) (scope : ScopeId)
    (text : String) : (ev.execute scope text).Upholds r (Expr.Meets r) :=
  (h.read text).bind fun e he => hev.eval scope e he

theorem upholds_readEach (h : r.Regular embedding) :
    ∀ texts : List String, (readEach texts).Upholds r (Expr.MeetsAll r)
  | [] => .pure trivial
  | text :: rest => (h.read text).bind fun _ he =>
    (upholds_readEach h rest).bind fun _ hes => .pure ⟨he, hes⟩

theorem upholds_addAlias (h : r.Regular embedding) (hr : r.Standard) (scope : ScopeId)
    (source target : String) :
    (do set (← StoreM.ask fun s => s.addAlias scope source target) : StoreM Unit).Upholds r
      fun _ => True := by
  intro s hs
  rw [StoreM.runOn_bind, StoreM.runOn_ask]
  cases halias : s.addAlias scope source target with
  | ok next => exact ⟨Store.meets_of_addAlias hs hr halias, trivial⟩
  | error e =>
    refine ⟨hs, ?_⟩
    rcases Store.addAlias_eq_error halias with rfl | rfl <;> exact h.raised _ nofun

/-- The first element of an array is one of its parts. -/
theorem meets_first {e v : Expr} {a : ArrayInspection} (he : e.Meets r)
    (ha : inspectArray e = some a) (hfirst : a.first = some v) : v.Meets r := by
  cases e with
  | array ref elements =>
    cases ha
    obtain ⟨element, helement, rfl⟩ := Option.map_eq_some_iff.mp hfirst
    exact he element (List.mem_of_head? helement)
  | _ => cases ha

/-- What is told about a value has only parts of the value in it, and what they evaluate to. -/
theorem meets_inspectText (hev : ev.Upholds r) (h : r.Regular embedding) (scope : ScopeId)
    (text : String) (other : Option String) {s : Store} (hs : s.Meets r) :
    (inspectText ev scope text other s).2.Meets r ∧
      ∀ v, (Answer.inspection (inspectText ev scope text other s).1).Returns v → v.Meets r := by
  rw [inspectText]
  obtain ⟨hafter, hvalue⟩ := upholds_execute hev h scope text s hs
  -- the value is converted for the host program and back, and then evaluated once more
  rcases hrun : (ev.execute scope text).runOn s with ⟨stop | value, s₁⟩
  · rw [hrun] at hafter
    exact ⟨hafter, nofun⟩
  rw [hrun] at hafter hvalue
  obtain ⟨hafter, hreturned⟩ := StoreM.Upholds.toExpr (HostValue.meets_ofExpr hvalue)
    (fun d hd => h.returned d (HostValue.number_of_mem_decimals hvalue d hd)) s₁ hafter
  rcases hhost : (HostValue.ofExpr value).toExpr.runOn s₁ with ⟨stop | returned, s₂⟩
  · rw [hhost] at hafter
    dsimp only
    rw [hhost]
    exact ⟨hafter, nofun⟩
  rw [hhost] at hafter hreturned
  obtain ⟨hafter, hagain⟩ := hev.eval scope value hvalue s₂ hafter
  rcases hevaluate : (ev.eval scope value).runOn s₂ with ⟨again, s₃⟩
  rw [hevaluate] at hafter hagain
  dsimp only
  rw [hhost]
  dsimp only
  rw [hevaluate]
  refine ⟨?_, fun v hv => ?_⟩
  · cases other with
    | none => exact hafter
    | some otherText => exact (upholds_execute hev h scope otherText s₃ hafter).1
  · cases hv with
    | inspected => exact hvalue
    | hostReturned => exact hreturned
    | evaluatedAgain hv =>
      change again = .ok v at hv
      rw [hv] at hagain
      exact hagain
    | first ha hfirst => exact meets_first hvalue ha hfirst

/-- **A command** keeps a session as required, and its answer is. -/
theorem meets_runBy (hev : ev.Upholds r) (h : r.Regular embedding) (hr : r.Standard)
    (hs : session.Meets r) {command : Command}
    (hcommand : ∀ kind, command = .restart kind → r.Starts embedding kind) :
    StepMeets r (session.runBy ev embedding command) := by
  cases command with
  | execute text =>
    rw [runBy]
    exact stepMeets_answerValue hs (upholds_execute hev h session.current text)
  | define name text =>
    rw [runBy]
    exact stepMeets_answerDone hs ((h.read text).bind fun _ he => h.define (hr.name name) he)
  | get name =>
    rw [runBy]
    exact stepMeets_answerValue hs (h.lookup session.current name)
  | addAlias source target =>
    rw [runBy]
    exact stepMeets_answerDone hs (upholds_addAlias h hr session.current source target)
  | contains | complete | completeLine | bindings | inspectScope =>
    rw [runBy]
    exact stepMeets_of_asking hs nofun
  | enterChild =>
    rw [runBy]
    exact ⟨⟨Store.meets_newScope hs.store _, hs.held⟩, nofun⟩
  | leaveChild =>
    rw [runBy]
    refine ⟨?_, nofun⟩
    cases session.outer with
    | nil => exact hs
    | cons scope outer => exact ⟨hs.store, hs.held⟩
  | comeBack index =>
    rw [runBy]
    refine ⟨?_, nofun⟩
    cases session.left[index]? with
    | none => exact hs
    | some scope => exact ⟨hs.store, hs.held⟩
  | restart kind =>
    rw [runBy]
    exact ⟨⟨Store.meets_newEnvironment (Store.meets_releaseUnheld hs.store _) hr
      (hcommand kind rfl), hs.held⟩, nofun⟩
  | hold name =>
    rw [runBy]
    cases hget : session.store.get session.current name with
    | ok value =>
      refine ⟨⟨Store.meets_releaseUnheld hs.store _, ?_⟩, nofun⟩
      rintro v ⟨⟩
      exact Store.meets_of_get hs.store hget
    | error e => exact ⟨hs, nofun⟩
  | bindHeld name =>
    rw [runBy]
    cases hheld : session.held with
    | none => exact ⟨hs, nofun⟩
    | some value =>
      exact stepMeets_answerDone hs (h.define (hr.name name) (hs.held value hheld))
  | call name args =>
    rw [runBy]
    exact stepMeets_answerValue hs ((h.lookup session.current name).bind fun f hf =>
      (upholds_readEach h args).bind fun values hvalues => hev.invoke f values hf hvalues)
  | inspect text other =>
    rw [runBy]
    obtain ⟨hstore, hanswer⟩ := meets_inspectText hev h session.current text other hs.store
    exact ⟨⟨hstore, hs.held⟩, hanswer⟩

/-- **A session** that is as required stays so, command after command. -/
theorem meets_runAllBy (hev : ev.Upholds r) (h : r.Regular embedding) (hr : r.Standard)
    {commands : List Command} (hs : session.Meets r)
    (hcommands : ∀ kind, .restart kind ∈ commands → r.Starts embedding kind) :
    (session.runAllBy ev embedding commands).2.Meets r ∧
      ∀ answer ∈ (session.runAllBy ev embedding commands).1, ∀ v, answer.Returns v →
        v.Meets r := by
  induction commands generalizing session with
  | nil =>
    rw [runAllBy]
    exact ⟨hs, List.forall_mem_nil _⟩
  | cons command rest ih =>
    have hfirst : ∀ kind, command = .restart kind → r.Starts embedding kind := fun kind hkind =>
      hcommands kind (hkind ▸ List.mem_cons_self)
    obtain ⟨hnext, hanswer⟩ := meets_runBy hev h hr hs hfirst
    obtain ⟨hlast, hanswers⟩ := ih hnext fun kind hmem =>
      hcommands kind (List.mem_cons_of_mem _ hmem)
    rw [runAllBy]
    exact ⟨hlast, List.forall_mem_cons.mpr ⟨hanswer, hanswers⟩⟩

/-- The same with the functions of the embedding program, and a stable requirement. -/
theorem meets_runAll_of_starts (h : r.Stable embedding) (hr : r.Standard)
    {commands : List Command} (hs : session.Meets r)
    (hcommands : ∀ kind, .restart kind ∈ commands → r.Starts embedding kind) :
    (session.runAll embedding commands).2.Meets r ∧
      ∀ answer ∈ (session.runAll embedding commands).1, ∀ v, answer.Returns v → v.Meets r :=
  meets_runAllBy (upholds_within h depthBound) h.toRegular hr hs hcommands

/-- The same for a session that stays in environments of the language itself. -/
theorem meets_runAll (h : r.Stable embedding) (hr : r.Standard) {commands : List Command}
    (hs : session.Meets r) (hcommands : ∀ command ∈ commands, command ≠ .restart .embedded) :
    (session.runAll embedding commands).2.Meets r ∧
      ∀ answer ∈ (session.runAll embedding commands).1, ∀ v, answer.Returns v → v.Meets r :=
  meets_runAll_of_starts h hr hs fun _ hmem => Requirement.starts_of_ne fun heq =>
    hcommands _ hmem (congrArg Command.restart heq)

/-- A session that starts from a new environment is as required. -/
theorem meets_start_of_starts (hr : r.Standard) {kind : Store.Starting}
    (hkind : r.Starts embedding kind) : (start embedding .empty none kind).Meets r :=
  ⟨Store.meets_newEnvironment Store.meets_empty hr hkind, nofun⟩

/-- The same for an environment of the language itself. -/
theorem meets_start (hr : r.Standard) (embedding : Embedding) {kind : Store.Starting}
    (hkind : kind ≠ .embedded) : (start embedding .empty none kind).Meets r :=
  meets_start_of_starts hr (Requirement.starts_of_ne hkind)

end Session

end ExactLisp
