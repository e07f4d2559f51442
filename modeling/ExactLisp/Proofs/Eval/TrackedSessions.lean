import ExactLisp.Embedding.Sample
import ExactLisp.Proofs.Eval.Sessions
import ExactLisp.Proofs.Eval.Tracking

/-!
# What is known as a session goes on

A session holds what environments start with, and what it has read and evaluated. So a tracking
that admits the embedding program follows its commands (`Session.tracks_run`), and whole sessions
(`Session.tracks_runAll`): from any world that knows what a session holds, there is a world that
knows what it holds in the end, and all that it has answered on the way.
-/

namespace ExactLisp

variable {World : Type} {T : Tracking World} {w v : World} {embedding : Embedding} {s t : Store}

namespace Tracking

/-! ## New environments -/

theorem registerNative (hs : T.Describes w s) (scope : ScopeId) {f : Native}
    (hf : T.Code w f.code) : T.LeadsTo w (s.registerNative scope f) fun _ => True :=
  T.leadsTo_trans (T.object hs (.native hf)) fun _ _ hafter hnew =>
    T.bind hafter hnew scope f.name

theorem registerHost (hs : T.Describes w s) (scope : ScopeId) (name : String)
    (f : HostFunction) : T.LeadsTo w (s.registerHost scope name f) fun _ => True :=
  T.leadsTo_trans (T.object hs (.host f)) fun _ _ hafter hnew => T.bind hafter hnew scope name

theorem registerBuiltins (scope : ScopeId) : ∀ {w : World} {s : Store} (bs : List Builtin),
    T.Describes w s → T.LeadsTo w
      (bs.foldl (fun s b => s.registerNative scope (Store.builtinNative b)) s) fun _ => True
  | _, _, [], hs => T.stays hs trivial
  | _, _, b :: rest, hs =>
    T.leadsTo_trans (registerNative hs scope (f := Store.builtinNative b) trivial)
      fun _ _ hafter _ => registerBuiltins scope rest hafter

/-- An alias is bound to what is bound already. -/
theorem addAlias (hs : T.Describes w s) {scope : ScopeId} {source target : String}
    (halias : s.addAlias scope source target = .ok t) : T.LeadsTo w t fun _ => True := by
  rw [Store.addAlias] at halias
  split at halias
  next value hget =>
    rw [Store.define] at halias
    split at halias
    · cases halias
    · cases halias
      exact T.bind hs (T.get hs hget) scope target
  · cases halias

theorem installDefaults (hs : T.Describes w s) {scope : ScopeId} (hscope : T.scope w scope) :
    T.LeadsTo w (s.installDefaults scope) fun v => T.scope v scope := by
  rw [Store.installDefaults]
  refine T.leadsTo_trans (registerBuiltins scope Builtin.all hs) fun v hv hs _ => ?_
  have hscope := T.scope_mono hv hscope
  refine T.leadsTo_trans (registerNative hs scope (f := Store.evalNative scope) hscope)
    fun v hv hs _ => ?_
  have hscope := T.scope_mono hv hscope
  refine T.leadsTo_trans (registerNative hs scope (f := Store.execNative scope) hscope)
    fun v hv hs _ => ?_
  have hscope := T.scope_mono hv hscope
  split
  next halias =>
    exact T.leadsTo_trans (addAlias hs halias) fun v hv hs _ =>
      T.stays hs (T.scope_mono hv hscope)
  · exact T.stays hs hscope

/-- The scope of a new environment is known. -/
theorem newEnvironment (h : T.Admits embedding) (hs : T.Describes w s) (kind : Store.Starting) :
    T.LeadsTo w (s.newEnvironment embedding kind).2 fun v =>
      T.scope v (s.newEnvironment embedding kind).1 := by
  have hnone : ∀ p, none = some p → T.scope w p := nofun
  have hroot := T.newScope hs hnone
  cases kind with
  | bare => exact hroot
  | defaults => exact T.leadsTo_trans hroot fun v _ hs hscope => installDefaults hs hscope
  | embedded =>
    refine T.leadsTo_trans hroot fun v _ hs hscope =>
      T.leadsTo_trans (installDefaults hs hscope) fun v _ hs hscope => ?_
    exact T.leadsTo_trans (h.install hs hscope) fun v hv hs _ =>
      T.stays hs (T.scope_mono hv hscope)

theorem releaseAll : ∀ {w : World} {s : Store} (scopes : List ScopeId), T.Describes w s →
    T.LeadsTo w (scopes.foldl Store.release s) fun _ => True
  | _, _, [], hs => T.stays hs trivial
  | _, _, scope :: rest, hs => T.leadsTo_trans (T.release hs scope) fun _ _ hs _ =>
    releaseAll rest hs

theorem releaseUnheld (hs : T.Describes w s) (roots : List ScopeId) :
    T.LeadsTo w (s.releaseUnheld roots) fun _ => True :=
  releaseAll _ hs

end Tracking

/-! ## Commands -/

/-- Whether all that a session holds is known. -/
structure Session.Known (T : Tracking World) (w : World) (session : Session) : Prop where
  store : T.Describes w session.store
  current : T.scope w session.current
  outer : ∀ scope ∈ session.outer, T.scope w scope
  left : ∀ scope ∈ session.left, T.scope w scope
  held : ∀ e, session.held = some e → T.value w e

open StoreM (Tracks)

namespace Session

variable {session : Session}

/-- Whether a world grows to one that knows an answer, and the session after it. -/
def StepTracks (T : Tracking World) (w : World) (step : Answer × Session) : Prop :=
  ∃ v, T.GrowsTo w v ∧ step.2.Known T v ∧ ∀ e, step.1.Returns e → T.value v e

/-- What is done to the store leaves all else known. -/
theorem Known.of_describes (hs : session.Known T w) (hv : T.GrowsTo w v)
    (ht : T.Describes v t) : ({ session with store := t }).Known T v where
  store := ht
  current := T.scope_mono hv hs.current
  outer scope hscope := T.scope_mono hv (hs.outer scope hscope)
  left scope hscope := T.scope_mono hv (hs.left scope hscope)
  held e he := T.value_mono hv (hs.held e he)

/-- An answer without values in it, after a session that is known. -/
theorem Known.stepTracks (hs : session.Known T w) {answer : Answer}
    (hanswer : ∀ e, ¬ answer.Returns e) : StepTracks T w (answer, session) :=
  ⟨w, T.refl w, hs, fun e he => absurd he (hanswer e)⟩

theorem tracks_answerValue (hs : session.Known T w) {m : StoreM Expr}
    (hm : m.Tracks T w T.value) : StepTracks T w (session.answerValue m) := by
  obtain ⟨v, hv, hstore, hend⟩ := hm w (T.refl w) session.store hs.store
  refine ⟨v, hv, hs.of_describes hv hstore, fun e he => ?_⟩
  change (Answer.value (m.runOn session.store).1).Returns e at he
  generalize (m.runOn session.store).1 = outcome at he hend
  cases he
  exact hend e rfl

theorem tracks_answerDone (hs : session.Known T w) {m : StoreM Unit}
    (hm : m.Tracks T w fun _ _ => True) : StepTracks T w (session.answerDone m) := by
  obtain ⟨v, hv, hstore, -⟩ := hm w (T.refl w) session.store hs.store
  exact ⟨v, hv, hs.of_describes hv hstore, nofun⟩

theorem tracks_execute (h : T.Admits embedding) {scope : ScopeId} (hscope : T.scope w scope)
    (text : String) : (execute embedding scope text).Tracks T w T.value :=
  (Tracks.read text).bind fun _ _ hv he =>
    (T.tracks_within h depthBound).eval (T.scope_mono hv hscope) he

theorem tracks_readEach : ∀ {w : World} (texts : List String),
    (readEach texts).Tracks T w T.Values
  | _, [] => .pure fun _ _ => trivial
  | _, text :: rest => (Tracks.read text).bind fun _ _ _ he =>
    (tracks_readEach rest).bind fun _ _ hv hes => .pure_values ⟨T.value_mono hv he, hes⟩

theorem tracks_addAlias (scope : ScopeId) (source target : String) :
    (do set (← StoreM.ask fun s => s.addAlias scope source target) : StoreM Unit).Tracks T w
      fun _ _ => True := by
  intro v _ s hs
  rw [StoreM.runOn_bind, StoreM.runOn_ask]
  cases halias : s.addAlias scope source target with
  | ok next =>
    obtain ⟨u, hu, hafter, -⟩ := T.addAlias hs halias
    exact ⟨u, hu, hafter, fun _ _ => trivial⟩
  | error e => exact T.stays hs nofun

/-- The first element of an array is one of its parts. -/
theorem value_first {e first : Expr} {a : ArrayInspection} (he : T.value w e)
    (ha : inspectArray e = some a) (hfirst : a.first = some first) : T.value w first := by
  cases e with
  | array ref elements =>
    cases ha
    obtain ⟨element, helement, rfl⟩ := Option.map_eq_some_iff.mp hfirst
    exact T.elements he element (List.mem_of_head? helement)
  | _ => cases ha

/-- All that is told about a value is known in the end. -/
theorem tracks_inspectText (h : T.Admits embedding) (hs : T.Describes w s) {scope : ScopeId}
    (hscope : T.scope w scope) (text : String) (other : Option String) :
    T.LeadsTo w (inspectText (evaluator embedding) scope text other s).2 fun v =>
      ∀ e, (Answer.inspection (inspectText (evaluator embedding) scope text other s).1).Returns e →
        T.value v e := by
  rw [inspectText]
  obtain ⟨w₁, h₁, hafter, hvalue⟩ := tracks_execute h hscope text w (T.refl w) s hs
  rw [execute] at hafter hvalue
  rcases hrun : ((evaluator embedding).execute scope text).runOn s with ⟨stop | value, s₁⟩
  all_goals rw [hrun] at hafter hvalue
  · exact ⟨w₁, h₁, hafter, fun e he => by cases he⟩
  have hvalue := hvalue value rfl
  -- converting the value makes new lists and strings
  obtain ⟨w₂, h₂, hafter, hreturned⟩ :=
    Tracks.toExpr (T.ofExpr hvalue) w₁ (T.refl w₁) s₁ hafter
  dsimp only
  rcases hhost : (HostValue.ofExpr value).toExpr.runOn s₁ with ⟨stop | returned, s₂⟩
  all_goals rw [hhost] at hafter hreturned
  · exact ⟨w₂, T.trans h₁ h₂, hafter, fun e he => by cases he⟩
  have hreturned := hreturned returned rfl
  -- the value is evaluated once more, in what is known by then
  have hscope₂ := T.scope_mono (T.trans h₁ h₂) hscope
  obtain ⟨w₃, h₃, hafter, hagain⟩ := (T.tracks_within h depthBound).eval hscope₂
    (T.value_mono h₂ hvalue) w₂ (T.refl w₂) s₂ hafter
  dsimp only
  change T.Describes w₃ (((evaluator embedding).eval scope value).runOn s₂).2 at hafter
  change ∀ a, (((evaluator embedding).eval scope value).runOn s₂).1 = .ok a →
    T.value w₃ a at hagain
  rcases hevaluate : ((evaluator embedding).eval scope value).runOn s₂ with ⟨again, s₃⟩
  rw [hevaluate] at hafter hagain
  have htold : ∀ {u}, T.GrowsTo w₃ u → ∀ i : Inspection, i.value = value →
      i.hostReturned = returned → i.evaluatedAgain = again → i.array = inspectArray value →
        ∀ e, (Answer.inspection (.ok i)).Returns e → T.value u e := by
    intro u hu i hi hr ha harray e he
    have hvalue := T.value_mono (T.trans h₂ (T.trans h₃ hu)) hvalue
    cases he with
    | inspected => exact hi ▸ hvalue
    | hostReturned => exact hr ▸ T.value_mono (T.trans h₃ hu) hreturned
    | evaluatedAgain he => exact T.value_mono hu (hagain e (ha.symm.trans he))
    | first hfound hfirst => exact value_first hvalue (harray.symm.trans hfound) hfirst
  have hgrown := T.trans h₁ (T.trans h₂ h₃)
  cases other with
  | none => exact ⟨w₃, hgrown, hafter, htold (T.refl w₃) _ rfl rfl rfl rfl⟩
  | some otherText =>
    have hscope₃ := T.scope_mono h₃ hscope₂
    obtain ⟨w₄, h₄, hafter, -⟩ := tracks_execute h hscope₃ otherText w₃ (T.refl w₃) s₃ hafter
    exact ⟨w₄, T.trans hgrown h₄, hafter, htold h₄ _ rfl rfl rfl rfl⟩

/-- A session that starts is about an environment that is known. -/
theorem tracks_start (h : T.Admits embedding) (hs : T.Describes w s) {held : Option Expr}
    (hheld : ∀ e, held = some e → T.value w e) (kind : Store.Starting) :
    ∃ v, T.GrowsTo w v ∧ (start embedding s held kind).Known T v := by
  obtain ⟨v, hv, hstore, hscope⟩ := T.newEnvironment h hs kind
  exact ⟨v, hv, hstore, hscope, List.forall_mem_nil _, List.forall_mem_nil _,
    fun e he => T.value_mono hv (hheld e he)⟩

/-- To enter a scope of its own, a session adds one inside the current scope. -/
theorem tracks_enterChild (hs : session.Known T w) :
    StepTracks T w (session.run embedding .enterChild) := by
  have hparent : ∀ p, some session.current = some p → T.scope w p := by
    rintro p ⟨⟩
    exact hs.current
  obtain ⟨v, hv, hstore, hscope⟩ := T.newScope hs.store hparent
  have hknown := hs.of_describes hv hstore
  rw [run, runBy]
  exact ⟨v, hv, ⟨hstore, hscope, List.forall_mem_cons.mpr ⟨hknown.current, hknown.outer⟩,
    hknown.left, hknown.held⟩, fun e he => by cases he⟩

theorem tracks_leaveChild (hs : session.Known T w) :
    StepTracks T w (session.run embedding .leaveChild) := by
  rw [run, runBy]
  cases houter : session.outer with
  | nil => exact hs.stepTracks fun e he => by cases he
  | cons scope rest =>
    obtain ⟨hscope, hrest⟩ := List.forall_mem_cons.mp (houter ▸ hs.outer)
    exact ⟨w, T.refl w, ⟨hs.store, hscope, hrest,
      List.forall_mem_cons.mpr ⟨hs.current, hs.left⟩, hs.held⟩, fun e he => by cases he⟩

/-- A scope that is come back to has been left before. -/
theorem tracks_comeBack (hs : session.Known T w) (index : Nat) :
    StepTracks T w (session.run embedding (.comeBack index)) := by
  rw [run, runBy]
  cases hleft : session.left[index]? with
  | none => exact hs.stepTracks fun e he => by cases he
  | some scope =>
    have hscope := hs.left scope (List.mem_of_getElem? hleft)
    exact ⟨w, T.refl w, ⟨hs.store, hscope, List.forall_mem_cons.mpr ⟨hs.current, hs.outer⟩,
      fun i hi => hs.left i (List.mem_of_mem_eraseIdx hi), hs.held⟩, fun e he => by cases he⟩

theorem tracks_restart (h : T.Admits embedding) (hs : session.Known T w)
    (kind : Store.Starting) : StepTracks T w (session.run embedding (.restart kind)) := by
  obtain ⟨v, hv, hreleased, -⟩ := T.releaseUnheld hs.store session.capturedByHeld
  have hheld : ∀ e, session.held = some e → T.value v e :=
    fun e he => T.value_mono hv (hs.held e he)
  obtain ⟨u, hu, hstart⟩ := tracks_start h hreleased hheld kind
  rw [run, runBy]
  exact ⟨u, T.trans hv hu, hstart, fun e he => by cases he⟩

/-- What is kept aside is what a name stands for. -/
theorem tracks_hold (hs : session.Known T w) (name : String) :
    StepTracks T w (session.run embedding (.hold name)) := by
  rw [run, runBy]
  cases hget : session.store.get session.current name with
  | ok value =>
    have hheld : ∀ e, some value = some e → T.value w e := by
      rintro e ⟨⟩
      exact T.get hs.store hget
    have hknown : ({ session with held := some value }).Known T w :=
      ⟨hs.store, hs.current, hs.outer, hs.left, hheld⟩
    obtain ⟨v, hv, hreleased, -⟩ := T.releaseUnheld hknown.store
      (({ session with held := some value } : Session).scopes ++
        ({ session with held := some value } : Session).capturedByHeld)
    exact ⟨v, hv, hknown.of_describes hv hreleased, fun e he => by cases he⟩
  | error e => exact hs.stepTracks fun e he => by cases he

/-- **A command** is followed, and so is its answer. -/
theorem tracks_run (h : T.Admits embedding) (hs : session.Known T w) (command : Command) :
    StepTracks T w (session.run embedding command) := by
  cases command with
  | execute text =>
    rw [run, runBy]
    exact tracks_answerValue hs (tracks_execute h hs.current text)
  | define name text =>
    rw [run, runBy]
    exact tracks_answerDone hs
      ((Tracks.read text).bind fun _ _ _ he => .define he session.current name)
  | get name =>
    rw [run, runBy]
    exact tracks_answerValue hs (.lookup session.current name)
  | addAlias source target =>
    rw [run, runBy]
    exact tracks_answerDone hs (tracks_addAlias session.current source target)
  | contains | complete | completeLine | bindings | inspectScope =>
    rw [run, runBy]
    exact hs.stepTracks fun e he => by cases he
  | enterChild => exact tracks_enterChild hs
  | leaveChild => exact tracks_leaveChild hs
  | comeBack index => exact tracks_comeBack hs index
  | restart kind => exact tracks_restart h hs kind
  | hold name => exact tracks_hold hs name
  | bindHeld name =>
    rw [run, runBy]
    cases hheld : session.held with
    | none => exact hs.stepTracks fun e he => by cases he
    | some value =>
      exact tracks_answerDone hs (.define (hs.held value hheld) session.current name)
  | call name args =>
    rw [run, runBy]
    exact tracks_answerValue hs ((Tracks.lookup session.current name).bind
      fun _ _ _ hf => (tracks_readEach args).bind fun _ _ hv hargs =>
        (T.tracks_within h depthBound).invoke (T.value_mono hv hf) hargs)
  | inspect text other =>
    rw [run, runBy]
    obtain ⟨v, hv, hstore, hanswer⟩ := tracks_inspectText h hs.store hs.current text other
    exact ⟨v, hv, hs.of_describes hv hstore, hanswer⟩

/-- **A session** is followed, command after command, and so are all its answers. -/
theorem tracks_runAll (h : T.Admits embedding) (hs : session.Known T w)
    (commands : List Command) :
    ∃ v, T.GrowsTo w v ∧ (session.runAll embedding commands).2.Known T v ∧
      ∀ answer ∈ (session.runAll embedding commands).1, ∀ e, answer.Returns e →
        T.value v e := by
  induction commands generalizing session w with
  | nil =>
    rw [runAll, runAllBy]
    exact ⟨w, T.refl w, hs, List.forall_mem_nil _⟩
  | cons command rest ih =>
    obtain ⟨v, hv, hnext, hanswer⟩ := tracks_run h hs command
    obtain ⟨u, hu, hlast, hanswers⟩ := ih hnext
    rw [runAll, runAllBy]
    exact ⟨u, T.trans hv hu, hlast, List.forall_mem_cons.mpr
      ⟨fun e he => T.value_mono hu (hanswer e he), hanswers⟩⟩

end Session

/-! ## Operations of an embedding program -/

/-- The function `call1` is followed if the function is that it calls. -/
theorem Sample.tracks_call1 {invoke : Invoke}
    (hinvoke : ∀ {w f args}, T.value w f → T.Values w args →
      (invoke f args).Tracks T w T.value) {args : List Expr} (hargs : T.Values w args) :
    (Sample.call1.run invoke args).Tracks T w T.value := by
  rcases args with _ | ⟨f, _ | ⟨a, _ | ⟨_, _⟩⟩⟩
  · exact .fail _
  · exact .fail _
  · obtain ⟨hf, ha, -⟩ := hargs
    exact (Tracks.asFunction hf).bind fun v f hv hf =>
      have hvalue : T.Values v [a] := ⟨T.value_mono hv ha, trivial⟩
      hinvoke hf hvalue
  · exact .fail _

/-- The function `echo` gives back what it was given. -/
theorem Sample.mem_of_echo {receiver : Option HostObject} {args : List HostValue}
    {cells : Array Int64} {x : HostValue}
    (hx : ((Sample.echo.run receiver args).run.run cells).1 = .ok x) : x ∈ args := by
  rcases args with _ | ⟨a, _ | ⟨_, _⟩⟩
  · cases hx
  · cases hx
    exact List.mem_cons_self
  · cases hx

end ExactLisp
