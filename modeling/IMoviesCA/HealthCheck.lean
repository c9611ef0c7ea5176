import Mathlib.Data.List.Chain
import Mathlib.Data.List.Induction
import IMoviesCA.DataModel

/-!
# The check of the local configuration

`LocalConfigHealthCheck` counts the accesses to the configuration files of the web server, and starts
again when more than five minutes have passed since the last one.  The login page starts the commands
of its query when the counter is above 10, and sets it back to 1.  Nothing but the page makes the class
load, so there is no counter before the first page.

A page starts commands if and only if there were ten accesses, each at most five minutes after the one
before it, since a page that was shown and since the last page that started commands; how long ago the
last of them was does not matter (`loginPage_starts_iff`).
-/

namespace IMoviesCA

/-! ## The counter -/

/-- The fields of `LocalConfigHealthCheck` that change; the counter is an `int`. -/
structure LocalConfigHealthCheck where
  lastCheck : Time
  checkDelay : ℤ
  deriving DecidableEq, Repr

/-- The arithmetic of an `int`, which wraps. -/
def int32 (n : ℤ) : ℤ := n.bmod (2 ^ 32)

namespace LocalConfigHealthCheck

/-- `TimeSpan.FromMinutes(5)`. -/
def checkInterval : Time := 5 * 60 * ticksPerSecond

/-- The initial values of the fields, when the class is loaded. -/
def load (utcNow : Time) : LocalConfigHealthCheck := ⟨utcNow, 1⟩

/-- `Watcher_Changed`, at its two readings of the clock. -/
def watcherChanged (h : LocalConfigHealthCheck) (utcNow utcNow' : Time) : LocalConfigHealthCheck where
  lastCheck := utcNow'
  checkDelay := int32 ((if h.lastCheck + checkInterval < utcNow then 1 else h.checkDelay) + 1)

end LocalConfigHealthCheck

/-! ## The login page -/

/-- The values of the parameters `log` and `logFile`; `none` is one that the query does not have. -/
structure LoginQuery where
  log : Option (List String)
  logFile : Option (List String)
  deriving DecidableEq, Repr

/-- `ProcessStartInfo`. -/
structure ProcessStartInfo where
  fileName : String
  arguments : String
  deriving DecidableEq, Repr

/-- The double quotation mark. -/
def quotationMark : Char := Char.ofNat 0x22

/-- The character before an escaped quotation mark. -/
def backslash : Char := Char.ofNat 0x5C

/-- `log.Replace`: a backslash before each quotation mark. -/
def escapedLog (log : String) : String :=
  String.ofList (log.toList.flatMap fun ch => if ch = quotationMark then [backslash, ch] else [ch])

/-- `Arguments`. -/
def processArguments (log : String) : String :=
  "-c " ++ String.singleton quotationMark ++ escapedLog log ++ String.singleton quotationMark

/-- The processes of the loop over the values of `log`; `fileName[0]` throws when there is none. -/
def LoginQuery.processes (query : LoginQuery) : List ProcessStartInfo :=
  match query.log, query.logFile with
  | some logs, some (fileName :: _) => logs.map fun log => ⟨fileName, processArguments log⟩
  | _, _ => []

/-- The query has both parameters. -/
def LoginQuery.both (query : LoginQuery) : Bool := query.log.isSome && query.logFile.isSome

/-- What the view looks at, besides the model. -/
def LocalConfigHealthCheck.loginPage (h : LocalConfigHealthCheck) (query : LoginQuery) (started : ℕ) :
    LocalConfigHealthCheck × List ProcessStartInfo :=
  if 10 < h.checkDelay ∧ query.both = true then
    ({ h with checkDelay := 1 }, query.processes.take started)
  else (h, [])

theorem LocalConfigHealthCheck.loginPage_of {h : LocalConfigHealthCheck} {query : LoginQuery}
    (hcond : 10 < h.checkDelay ∧ query.both = true) (started : ℕ) :
    h.loginPage query started = ({ h with checkDelay := 1 }, query.processes.take started) :=
  if_pos hcond

theorem LocalConfigHealthCheck.loginPage_of_not {h : LocalConfigHealthCheck} {query : LoginQuery}
    (hcond : ¬ (10 < h.checkDelay ∧ query.both = true)) (started : ℕ) :
    h.loginPage query started = (h, []) :=
  if_neg hcond

theorem LocalConfigHealthCheck.loginPage_load (utcNow : Time) (query : LoginQuery) (started : ℕ) :
    (load utcNow).loginPage query started = (load utcNow, []) := by
  have hdelay : (load utcNow).checkDelay = 1 := rfl
  exact loginPage_of_not (fun hcond => by rw [hdelay] at hcond; omega) started

/-- What happens: a configuration file is read, which the watcher notices at `utcNow`, or the login page
is shown.  Of the processes of the page the first ones can be started, until one cannot. -/
inductive CheckEvent
  | accessed (utcNow utcNow' : Time)
  | loginPage (utcNow : Time) (query : LoginQuery) (started : ℕ)

/-- The class, when it is loaded, after an event, and the processes that the event started. -/
def CheckEvent.run (h : Option LocalConfigHealthCheck) :
    CheckEvent → Option LocalConfigHealthCheck × List ProcessStartInfo
  | accessed utcNow utcNow' => (h.map fun h => h.watcherChanged utcNow utcNow', [])
  | loginPage utcNow query started =>
      let page := (h.getD (.load utcNow)).loginPage query started
      (some page.1, page.2)

/-- The class after the events, the oldest first. -/
def checkState (es : List CheckEvent) : Option LocalConfigHealthCheck :=
  es.foldl (fun h e => (e.run h).1) none

theorem checkState_append (es : List CheckEvent) (e : CheckEvent) :
    checkState (es ++ [e]) = (e.run (checkState es)).1 := by
  rw [checkState, List.foldl_append]
  rfl

/-! ## Ten accesses -/

/-- The access of an event: when the watcher looked at the clock. -/
def CheckEvent.access? : CheckEvent → Option (Time × Time)
  | accessed utcNow utcNow' => some (utcNow, utcNow')
  | loginPage _ _ _ => none

/-- The accesses of the events, with their times. -/
def accesses (es : List CheckEvent) : List (Time × Time) := es.filterMap CheckEvent.access?

@[simp] theorem accesses_nil : accesses [] = [] := rfl

@[simp] theorem accesses_append (es es' : List CheckEvent) :
    accesses (es ++ es') = accesses es ++ accesses es' := List.filterMap_append

@[simp] theorem accesses_accessed (utcNow utcNow' : Time) :
    accesses [.accessed utcNow utcNow'] = [(utcNow, utcNow')] := rfl

@[simp] theorem accesses_loginPage (utcNow : Time) (query : LoginQuery) (started : ℕ) :
    accesses [.loginPage utcNow query started] = [] := rfl

/-- An access that comes in time after another one. -/
def InTime (a b : Time × Time) : Prop := b.1 ≤ a.2 + LocalConfigHealthCheck.checkInterval

/-- The event is a page that starts the commands of its query, when the class is in this state. -/
def Triggers (h : Option LocalConfigHealthCheck) : CheckEvent → Prop
  | .accessed _ _ => False
  | .loginPage _ query _ => (∃ h', h = some h' ∧ 10 < h'.checkDelay) ∧ query.both = true

/-- The page was shown. -/
def Loaded (es : List CheckEvent) : Prop := ∃ utcNow query started, .loginPage utcNow query started ∈ es

/-- The last events: they come after a page, none of them is a page that starts commands, and each
access of them is in time. -/
structure Recent (before recent : List CheckEvent) : Prop where
  loaded : Loaded before
  untriggered : ∀ es e es', recent = es ++ e :: es' → ¬ Triggers (checkState (before ++ es)) e
  inTime : (accesses recent).IsChain InTime

/-- There were ten such accesses. -/
def Armed (es : List CheckEvent) : Prop :=
  ∃ before recent, es = before ++ recent ∧ Recent before recent ∧ 10 ≤ (accesses recent).length

/-! ## The last events -/

/-- The last of the events is one of the last events, or there are none. -/
theorem concat_eq_append {α : Type} {es before recent : List α} {e : α}
    (h : es ++ [e] = before ++ recent) :
    (recent = [] ∧ before = es ++ [e]) ∨ ∃ recent', recent = recent' ++ [e] ∧ es = before ++ recent' := by
  rcases recent.eq_nil_or_concat with rfl | ⟨recent', e', rfl⟩
  · exact .inl ⟨rfl, by simpa using h.symm⟩
  · rw [List.concat_eq_append, ← List.append_assoc] at h
    obtain ⟨hes, he⟩ := List.append_inj' h rfl
    obtain rfl : e = e' := by simpa using he
    exact .inr ⟨recent', List.concat_eq_append, hes⟩

theorem Recent.nil {es : List CheckEvent} (h : Loaded es) : Recent es [] where
  loaded := h
  untriggered := by simp
  inTime := .nil

theorem Recent.of_append {before recent es : List CheckEvent} (h : Recent before (recent ++ es)) :
    Recent before recent where
  loaded := h.loaded
  untriggered := fun es₁ e es₂ heq => h.untriggered es₁ e (es₂ ++ es) (by simp [heq])
  inTime := by
    have hchain := h.inTime
    rw [accesses_append] at hchain
    exact hchain.left_of_append

/-- Another event, that starts nothing and whose access is in time, is one of the last events. -/
theorem Recent.append {before recent : List CheckEvent} (h : Recent before recent) {e : CheckEvent}
    (he : ¬ Triggers (checkState (before ++ recent)) e)
    (hchain : (accesses (recent ++ [e])).IsChain InTime) : Recent before (recent ++ [e]) := by
  refine ⟨h.loaded, ?_, hchain⟩
  intro es e' es' heq
  rcases es'.eq_nil_or_concat with rfl | ⟨es', e'', rfl⟩
  · obtain ⟨rfl, he'⟩ := List.append_inj' heq rfl
    obtain rfl : e = e' := by simpa using he'
    exact he
  · rw [List.concat_eq_append, ← List.cons_append, ← List.append_assoc] at heq
    exact h.untriggered es e' es' (List.append_inj' heq rfl).1

/-! ## The counter counts them -/

theorem int32_of_lt {n : ℤ} (h₀ : 0 ≤ n) (h : n < 2 ^ 31) : int32 n = n := by
  unfold int32
  rw [Int.bmod_eq_of_le] <;> omega

/-- The counter is one more than the greatest number of accesses of the last events, and the time is
that of the last access. -/
structure Counts (es : List CheckEvent) (h : LocalConfigHealthCheck) : Prop where
  loaded : Loaded es
  counted : ∃ before recent, es = before ++ recent ∧ Recent before recent ∧
    h.checkDelay = (accesses recent).length + 1
  greatest : ∀ before recent, es = before ++ recent → Recent before recent →
    (accesses recent).length + 1 ≤ h.checkDelay
  lastCheck : ∀ before recent, es = before ++ recent → Loaded before →
    ∀ a ∈ (accesses recent).getLast?, h.lastCheck = a.2

/-- When the page is shown for the first time, or starts commands, the counter starts again. -/
theorem counts_restart {es : List CheckEvent} {h : LocalConfigHealthCheck} {utcNow : Time}
    {query : LoginQuery} {started : ℕ} (hdelay : h.checkDelay = 1)
    (hends : ∀ before recent, es = before ++ recent →
      ¬ Recent before (recent ++ [.loginPage utcNow query started]))
    (hlast : ∀ before recent, es = before ++ recent → Loaded before →
      ∀ a ∈ (accesses recent).getLast?, h.lastCheck = a.2) :
    Counts (es ++ [.loginPage utcNow query started]) h := by
  have hloaded : Loaded (es ++ [.loginPage utcNow query started]) :=
    ⟨utcNow, query, started, by simp⟩
  refine ⟨hloaded, ⟨_, [], (List.append_nil _).symm, .nil hloaded, by simp [hdelay]⟩, ?_, ?_⟩
  · intro before recent heq hrecent
    obtain ⟨rfl, -⟩ | ⟨recent', rfl, hes⟩ := concat_eq_append heq
    · simp [hdelay]
    · exact absurd hrecent (hends before recent' hes)
  · intro before recent heq hbefore a ha
    obtain ⟨rfl, -⟩ | ⟨recent', rfl, hes⟩ := concat_eq_append heq
    · simp at ha
    · exact hlast before recent' hes hbefore a (by simpa using ha)

/-- A page that starts nothing leaves the count as it is. -/
theorem counts_loginPage {es : List CheckEvent} {h : LocalConfigHealthCheck} (hcounts : Counts es h)
    (hstate : checkState es = some h) {utcNow : Time} {query : LoginQuery} {started : ℕ}
    (huntriggered : ¬ Triggers (some h) (.loginPage utcNow query started)) :
    Counts (es ++ [.loginPage utcNow query started]) h := by
  obtain ⟨before, recent, rfl, hrecent, hdelay⟩ := hcounts.counted
  refine ⟨⟨utcNow, query, started, by simp⟩, ?_, ?_, ?_⟩
  · refine ⟨before, recent ++ [.loginPage utcNow query started], (List.append_assoc ..), ?_, ?_⟩
    · exact hrecent.append (hstate ▸ huntriggered) (by simpa using hrecent.inTime)
    · simpa using hdelay
  · intro before' recent' heq hrecent'
    obtain ⟨rfl, -⟩ | ⟨recent', rfl, hes⟩ := concat_eq_append heq
    · simp [hdelay]
    · simpa using hcounts.greatest before' recent' hes hrecent'.of_append
  · intro before' recent' heq hbefore a ha
    obtain ⟨rfl, -⟩ | ⟨recent', rfl, hes⟩ := concat_eq_append heq
    · simp at ha
    · exact hcounts.lastCheck before' recent' hes hbefore a (by simpa using ha)

/-- An access is in time after the last one of the last events exactly when the watcher finds it so. -/
theorem isChain_accessed {recent : List CheckEvent} {utcNow utcNow' : Time} :
    (accesses (recent ++ [.accessed utcNow utcNow'])).IsChain InTime ↔
      (accesses recent).IsChain InTime ∧
        ∀ a ∈ (accesses recent).getLast?, InTime a (utcNow, utcNow') := by
  rw [accesses_append, accesses_accessed, List.isChain_append]
  simp

theorem Loaded.append {es : List CheckEvent} (h : Loaded es) (es' : List CheckEvent) :
    Loaded (es ++ es') := by
  obtain ⟨utcNow, query, started, hmem⟩ := h
  exact ⟨utcNow, query, started, List.mem_append_left es' hmem⟩

/-- A late access starts the count again. -/
theorem counts_late {es : List CheckEvent} {h : LocalConfigHealthCheck} (hcounts : Counts es h)
    {utcNow utcNow' : Time} (hlate : h.lastCheck + LocalConfigHealthCheck.checkInterval < utcNow) :
    Counts (es ++ [.accessed utcNow utcNow']) (h.watcherChanged utcNow utcNow') := by
  have hdelay : (h.watcherChanged utcNow utcNow').checkDelay = 2 := by
    unfold LocalConfigHealthCheck.watcherChanged
    rw [if_pos hlate]
    rfl
  refine ⟨hcounts.loaded.append _, ⟨es, _, rfl, ?_, by simp [hdelay]⟩, ?_, ?_⟩
  · have hchain : (accesses ([] ++ [.accessed utcNow utcNow'])).IsChain InTime := .singleton _
    exact (Recent.nil hcounts.loaded).append id hchain
  · intro before recent heq hrecent
    obtain ⟨rfl, -⟩ | ⟨recent, rfl, rfl⟩ := concat_eq_append heq
    · simp [hdelay]
    · -- no access of these is in time for the late one
      have hnone : accesses recent = [] := by
        rw [← List.getLast?_eq_none_iff, Option.eq_none_iff_forall_not_mem]
        intro a ha
        have hin : InTime a (utcNow, utcNow') := (isChain_accessed.1 hrecent.inTime).2 a ha
        have hlast := hcounts.lastCheck before recent rfl hrecent.loaded a ha
        rw [hlast] at hlate
        exact absurd hin (not_le.2 hlate)
      simp [hnone, hdelay]
  · intro before recent heq hbefore a ha
    obtain ⟨rfl, -⟩ | ⟨recent, rfl, rfl⟩ := concat_eq_append heq
    · simp at ha
    · obtain rfl : (utcNow, utcNow') = a := by simpa using ha
      rfl

/-- An access in time counts. -/
theorem counts_inTime {es : List CheckEvent} {h : LocalConfigHealthCheck} (hcounts : Counts es h)
    {utcNow utcNow' : Time} (hbound : (accesses es).length + 2 < 2 ^ 31)
    (hin : ¬ h.lastCheck + LocalConfigHealthCheck.checkInterval < utcNow) :
    Counts (es ++ [.accessed utcNow utcNow']) (h.watcherChanged utcNow utcNow') := by
  obtain ⟨before, recent, rfl, hrecent, hcount⟩ := hcounts.counted
  have hdelay : (h.watcherChanged utcNow utcNow').checkDelay = h.checkDelay + 1 := by
    unfold LocalConfigHealthCheck.watcherChanged
    rw [if_neg hin]
    simp only [accesses_append, List.length_append] at hbound
    exact int32_of_lt (by omega) (by omega)
  refine ⟨hcounts.loaded.append _, ?_, ?_, ?_⟩
  · refine ⟨before, recent ++ [.accessed utcNow utcNow'], List.append_assoc .., ?_, ?_⟩
    · refine hrecent.append id (isChain_accessed.2 ⟨hrecent.inTime, fun a ha => ?_⟩)
      have hlast := hcounts.lastCheck before recent rfl hrecent.loaded a ha
      rw [hlast] at hin
      exact not_lt.1 hin
    · simp [hdelay, hcount]
  · intro before' recent' heq hrecent'
    obtain ⟨rfl, -⟩ | ⟨recent', rfl, hes⟩ := concat_eq_append heq
    · simp only [accesses_nil, List.length_nil, hdelay]
      omega
    · have hgreatest := hcounts.greatest before' recent' hes hrecent'.of_append
      simp only [accesses_append, accesses_accessed, List.length_append, List.length_singleton]
      omega
  · intro before' recent' heq hbefore a ha
    obtain ⟨rfl, -⟩ | ⟨recent', rfl, hes⟩ := concat_eq_append heq
    · simp at ha
    · obtain rfl : (utcNow, utcNow') = a := by simpa using ha
      rfl

/-! ## The events, one after the other -/

/-- What is known of the class after the events. -/
def Tracks (es : List CheckEvent) : Option LocalConfigHealthCheck → Prop
  | none => ¬ Loaded es
  | some h => Counts es h

theorem tracks_accessed {es : List CheckEvent} (htracks : Tracks es (checkState es))
    {utcNow utcNow' : Time} (hbound : (accesses es).length + 2 < 2 ^ 31) :
    Tracks (es ++ [.accessed utcNow utcNow']) (checkState (es ++ [.accessed utcNow utcNow'])) := by
  rw [checkState_append]
  cases hstate : checkState es with
  | none =>
    rw [hstate] at htracks
    rintro ⟨t, query, started, hmem⟩
    exact htracks ⟨t, query, started, by simpa using hmem⟩
  | some h =>
    rw [hstate] at htracks
    by_cases hlate : h.lastCheck + LocalConfigHealthCheck.checkInterval < utcNow
    · exact counts_late htracks hlate
    · exact counts_inTime htracks hbound hlate

theorem tracks_loginPage {es : List CheckEvent} (htracks : Tracks es (checkState es))
    (utcNow : Time) (query : LoginQuery) (started : ℕ) :
    Tracks (es ++ [.loginPage utcNow query started])
      (checkState (es ++ [.loginPage utcNow query started])) := by
  rw [checkState_append]
  cases hstate : checkState es with
  | none =>
    rw [hstate] at htracks
    show Counts _ ((LocalConfigHealthCheck.load utcNow).loginPage query started).1
    rw [LocalConfigHealthCheck.loginPage_load]
    refine counts_restart rfl ?_ ?_
    · rintro before recent rfl hrecent
      exact htracks (hrecent.loaded.append recent)
    · rintro before recent rfl hbefore
      exact absurd (hbefore.append recent) htracks
  | some h =>
    rw [hstate] at htracks
    show Counts _ (h.loginPage query started).1
    by_cases htriggers : 10 < h.checkDelay ∧ query.both = true
    · rw [LocalConfigHealthCheck.loginPage_of htriggers]
      refine counts_restart rfl ?_ htracks.lastCheck
      rintro before recent rfl hrecent
      refine hrecent.untriggered recent _ [] rfl ⟨⟨h, hstate, htriggers.1⟩, htriggers.2⟩
    · rw [LocalConfigHealthCheck.loginPage_of_not htriggers]
      refine counts_loginPage htracks hstate ?_
      rintro ⟨⟨h', heq, hlt⟩, hboth⟩
      obtain rfl : h = h' := Option.some.inj heq
      exact htriggers ⟨hlt, hboth⟩

theorem tracks_checkState (es : List CheckEvent) (hbound : (accesses es).length + 1 < 2 ^ 31) :
    Tracks es (checkState es) := by
  induction es using List.reverseRecOn with
  | nil =>
    rintro ⟨t, query, started, hmem⟩
    simp at hmem
  | append_singleton es e ih =>
    cases e with
    | accessed utcNow utcNow' =>
      simp only [accesses_append, accesses_accessed, List.length_append, List.length_singleton]
        at hbound
      exact tracks_accessed (ih (by omega)) (by omega)
    | loginPage utcNow query started =>
      exact tracks_loginPage (ih (by simpa using hbound)) utcNow query started

/-- The counter is above 10 exactly when there were ten accesses. -/
theorem armed_iff {es : List CheckEvent} (hbound : (accesses es).length + 1 < 2 ^ 31) :
    Armed es ↔ ∃ h, checkState es = some h ∧ 10 < h.checkDelay := by
  have htracks := tracks_checkState es hbound
  constructor
  · rintro ⟨before, recent, rfl, hrecent, hlen⟩
    cases hstate : checkState (before ++ recent) with
    | none =>
      rw [hstate] at htracks
      exact absurd (hrecent.loaded.append recent) htracks
    | some h =>
      rw [hstate] at htracks
      have hgreatest := htracks.greatest before recent rfl hrecent
      exact ⟨h, rfl, by omega⟩
  · rintro ⟨h, hstate, hlt⟩
    rw [hstate] at htracks
    obtain ⟨before, recent, heq, hrecent, hdelay⟩ := htracks.counted
    exact ⟨before, recent, heq, hrecent, by omega⟩

/-- The login page starts the commands of its query if and only if there were ten accesses in a row,
each in time, since a page was shown and since a page started commands; it starts no others. -/
theorem loginPage_starts_iff (es : List CheckEvent) (hbound : (accesses es).length + 1 < 2 ^ 31)
    (utcNow : Time) (query : LoginQuery) (started : ℕ) :
    (Armed es ∧ query.both = true →
      ((CheckEvent.loginPage utcNow query started).run (checkState es)).2 =
        query.processes.take started) ∧
    (¬ (Armed es ∧ query.both = true) →
      ((CheckEvent.loginPage utcNow query started).run (checkState es)).2 = []) := by
  rw [armed_iff hbound]
  constructor
  · rintro ⟨⟨h, hstate, hlt⟩, hboth⟩
    rw [hstate]
    exact congrArg Prod.snd (LocalConfigHealthCheck.loginPage_of ⟨hlt, hboth⟩ started)
  · intro hnot
    cases hstate : checkState es with
    | none => exact congrArg Prod.snd (LocalConfigHealthCheck.loginPage_load utcNow query started)
    | some h =>
      exact congrArg Prod.snd (LocalConfigHealthCheck.loginPage_of_not
        (fun hcond => hnot ⟨⟨h, hstate, hcond.1⟩, hcond.2⟩) started)

/-- The page, and ten accesses a second apart. -/
def tenAccesses : List CheckEvent :=
  .loginPage 0 ⟨none, none⟩ 0 ::
    (List.range 10).map fun i => .accessed (i * ticksPerSecond) (i * ticksPerSecond)

/-- A query with both parameters. -/
def commandQuery : LoginQuery where
  log := some ["true"]
  logFile := some ["sh"]

/-- The page starts the command of its query a year after the accesses. -/
theorem loginPage_starts_command :
    ((CheckEvent.loginPage (365 * 86400 * ticksPerSecond) commandQuery 1).run
      (checkState tenAccesses)).2 = commandQuery.processes := by
  have hbound : (accesses tenAccesses).length + 1 < 2 ^ 31 := by decide
  have harmed : Armed tenAccesses :=
    (armed_iff hbound).2 ⟨⟨9 * ticksPerSecond, 11⟩, by decide, by decide⟩
  exact (loginPage_starts_iff tenAccesses hbound _ commandQuery 1).1 ⟨harmed, rfl⟩

end IMoviesCA
