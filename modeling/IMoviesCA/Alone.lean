import IMoviesCA.WebServer

/-!
# An action that runs alone

The rules for `Machine.alone` on the actions of the two servers: an action that returns has gone
through the values of its parts (`of_alone_bind`), and an operation that does not fail can be
carried out (`alone_call`).
-/

namespace IMoviesCA

variable {α β : Type} {i : ℕ} {sched : ℕ → ℕ × Choice} {s s' : State}

theorem exec_of_ok {e : Op} {v : e.Val} {ch : Choice} (hok : ch = .ok) (hv : (e.run i s).1 = .ok v) :
    exec i e ch s = (.ok v, (e.run i s).2) := by
  rw [hok]
  exact Prod.ext hv rfl

/-- An operation that does not fail. -/
theorem alone_call {e : Op} {f : e.Val → Action α} {v : e.Val} (hok : (sched 0).2 = .ok)
    (hv : (e.run i (tick (sched 0).1 s)).1 = .ok v) :
    machine.alone i (call e >>= f).run sched s =
      machine.alone i (f v).run (fun n => sched (n + 1)) (e.run i (tick (sched 0).1 s)).2 :=
  (Machine.alone_op (exec_of_ok hok hv)).trans rfl

/-- An action goes on with the value of its first part. -/
theorem alone_bind_of_ok {p : Action α} {f : α → Action β} {a : α} {s₁ : State}
    (h : machine.alone i p.run sched s = (.ok a, s₁)) :
    ∃ n, machine.alone i (p >>= f).run sched s =
      machine.alone i (f a).run (fun k => sched (k + n)) s₁ := by
  have hbind := Machine.alone_bind machine i (ExceptT.bindCont f) p.run sched s
  rw [h] at hbind
  exact ⟨_, hbind⟩

/-- An action that returns has returned from its first part. -/
theorem of_alone_bind {p : Action α} {f : α → Action β} {b : β}
    (h : machine.alone i (p >>= f).run sched s = (.ok b, s')) :
    ∃ a s₁ n, machine.alone i p.run sched s = (.ok a, s₁) ∧
      machine.alone i (f a).run (fun k => sched (k + n)) s₁ = (.ok b, s') := by
  have hbind : machine.alone i (p >>= f).run sched s = _ :=
    Machine.alone_bind machine i (ExceptT.bindCont f) p.run sched s
  rw [hbind] at h
  cases hp : machine.alone i p.run sched s with
  | mk x s₁ =>
    rw [hp] at h
    cases x with
    | ok a => exact ⟨a, s₁, _, rfl, h⟩
    | error f => cases h

/-- An operation that did not fail has its value. -/
theorem of_alone_call {e : Op} {v : e.Val} (he : e.Throws)
    (h : machine.alone i (call e).run sched s = (.ok v, s')) :
    e.run i (tick (sched 0).1 s) = (.ok v, s') := by
  have hexec : exec i e (sched 0).2 (tick (sched 0).1 s) = (.ok v, s') := h
  cases hc : (sched 0).2 with
  | ok =>
    rw [hc] at hexec
    exact hexec
  | throws written =>
    rw [hc, exec, he written] at hexec
    cases hexec

/-! ## Requests -/

/-- A program as a part of an action: it does not throw. -/
theorem answer_lift (p : Program Op Op.Res α) (f : α → Action Reply) :
    answer (ExceptT.lift p >>= f) = p >>= fun a => answer (f a) := by
  show (ExceptT.lift p >>= f).run >>= _ = _
  rw [ExceptT.run_bind_lift, LawfulMonad.bind_assoc]
  rfl

theorem alone_orServerError_of_ok {e : Op} {k : e.Val → Program Op Op.Res Reply} {v : e.Val}
    (hok : (sched 0).2 = .ok) (hv : (e.run i (tick (sched 0).1 s)).1 = .ok v) :
    machine.alone i (orServerError e k) sched s =
      machine.alone i (k v) (fun n => sched (n + 1)) (e.run i (tick (sched 0).1 s)).2 :=
  (Machine.alone_op (exec_of_ok hok hv)).trans rfl

theorem operations_orServerError_of_ok {e : Op} {k : e.Val → Program Op Op.Res Reply} {v : e.Val}
    (hok : (sched 0).2 = .ok) (hv : (e.run i (tick (sched 0).1 s)).1 = .ok v) :
    machine.operations i (orServerError e k) sched s =
      machine.operations i (k v) (fun n => sched (n + 1)) (e.run i (tick (sched 0).1 s)).2 + 1 :=
  (Machine.operations_op (exec_of_ok hok hv)).trans rfl

theorem alone_orServerError_of_throws {e : Op} {k : e.Val → Program Op Op.Res Reply}
    {written : Option ℕ} (he : e.Throws) (hthrows : (sched 0).2 = .throws written) :
    machine.alone i (orServerError e k) sched s =
      (.serverError, e.leftBehind i written (tick (sched 0).1 s)) := by
  have hexec : exec i e (sched 0).2 (tick (sched 0).1 s) =
      (.error .external, e.leftBehind i written (tick (sched 0).1 s)) := by
    rw [hthrows, exec, he written]
  exact (Machine.alone_op hexec).trans rfl

end IMoviesCA
