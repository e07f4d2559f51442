import ExactLisp.Session

/-!
# Running a computation

How a computation made of parts runs on a store, one equation for each way of putting the
parts together. What is proved of runs is proved through these.
-/

namespace ExactLisp.StoreM

variable {α β : Type}

theorem runOn_pure (a : α) (s : Store) : (pure a : StoreM α).runOn s = (.ok a, s) := rfl

theorem runOn_fail (e : Error) (s : Store) :
    (fail e : StoreM α).runOn s = (.error (.error e), s) := rfl

theorem runOn_bind_of_ok {m : StoreM α} {s next : Store} {a : α}
    (h : m.runOn s = (.ok a, next)) (f : α → StoreM β) :
    (m >>= f).runOn s = (f a).runOn next := by
  rw [runOn_bind, h]

theorem runOn_bind_of_error {m : StoreM α} {s next : Store} {stop : Stop}
    (h : m.runOn s = (.error stop, next)) (f : α → StoreM β) :
    (m >>= f).runOn s = (.error stop, next) := by
  rw [runOn_bind, h]

/-- A sequence has a value if both of its parts have one. -/
theorem runOn_bind_eq_ok_iff {m : StoreM α} {f : α → StoreM β} {s last : Store} {b : β} :
    (m >>= f).runOn s = (.ok b, last) ↔
      ∃ a next, m.runOn s = (.ok a, next) ∧ (f a).runOn next = (.ok b, last) := by
  constructor
  · intro h
    rw [runOn_bind] at h
    rcases hrun : m.runOn s with ⟨stop | a, next⟩
    · rw [hrun] at h
      cases h
    · rw [hrun] at h
      exact ⟨a, next, rfl, h⟩
  · rintro ⟨a, next, hm, hf⟩
    rw [runOn_bind_of_ok hm, hf]

/-- A sequence fails in its first part, or in its second part after the first one. -/
theorem runOn_bind_eq_error_iff {m : StoreM α} {f : α → StoreM β} {s last : Store} {stop : Stop} :
    (m >>= f).runOn s = (.error stop, last) ↔
      m.runOn s = (.error stop, last) ∨
        ∃ a next, m.runOn s = (.ok a, next) ∧ (f a).runOn next = (.error stop, last) := by
  constructor
  · intro h
    rw [runOn_bind] at h
    rcases hrun : m.runOn s with ⟨stop' | a, next⟩
    · rw [hrun] at h
      cases h
      exact .inl rfl
    · rw [hrun] at h
      exact .inr ⟨a, next, rfl, h⟩
  · rintro (hm | ⟨a, next, hm, hf⟩)
    · exact runOn_bind_of_error hm f
    · rw [runOn_bind_of_ok hm, hf]

theorem runOn_tryCatch_of_ok {m : StoreM α} {s next : Store} {a : α}
    (h : m.runOn s = (.ok a, next)) (handle : Stop → StoreM α) :
    (tryCatch m handle).runOn s = (.ok a, next) := by
  have hrun : m.run.run s = (.ok a, next) := h
  rw [runOn, ExceptT.run_tryCatch, StateT.run_bind, hrun]
  rfl

theorem runOn_tryCatch_of_error {m : StoreM α} {s next : Store} {stop : Stop}
    (h : m.runOn s = (.error stop, next)) (handle : Stop → StoreM α) :
    (tryCatch m handle).runOn s = (handle stop).runOn next := by
  have hrun : m.run.run s = (.error stop, next) := h
  rw [runOn, ExceptT.run_tryCatch, StateT.run_bind, hrun]
  rfl

theorem runOn_ofExcept (x : Except Error α) (s : Store) :
    (ofExcept x).runOn s = (x.mapError Stop.error, s) := by
  cases x <;> rfl

theorem runOn_ask (f : Store → Except Error α) (s : Store) :
    (ask f).runOn s = ((f s).mapError Stop.error, s) := runOn_ofExcept (f s) s

end ExactLisp.StoreM

namespace ExactLisp

/-- How a computation of the host program ends, as the store's computations do. -/
def HostFault.asError (function : String) : HostFault → Error
  | rejected e => e
  | failed text => .host function text

/-- A computation of the host program changes the cells of the store and nothing else. -/
theorem Embedding.runOn_runHostM {α : Type} (name : String) (m : HostM α) (s : Store) :
    (runHostM name m).runOn s =
      ((m.run.run s.cells).1.mapError fun fault => .error (fault.asError name),
        { s with cells := (m.run.run s.cells).2 }) := by
  have hstep : (StoreM.onStore fun s =>
      ((m.run.run s.cells).1, { s with cells := (m.run.run s.cells).2 })).runOn s =
        (.ok (m.run.run s.cells).1, { s with cells := (m.run.run s.cells).2 }) := rfl
  rw [runHostM]
  refine (StoreM.runOn_bind_of_ok hstep _).trans ?_
  rcases (m.run.run s.cells).1 with (_ | _) | _ <;> rfl

end ExactLisp
