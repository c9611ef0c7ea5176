import IMoviesCA.Ledger
import IMoviesCA.Deployment
import IMoviesCA.Lib.Moments

/-!
# The statistics on the dashboard

`AdminController.Index` queries `public_certificates` three times, and every query is a transaction
of its own.  The three numbers are therefore those of three states of the run, in the order of the
queries (`adminStats_of_run`).  Without a commit between the first query and the last they are those
of one state; with one they need not be (`adminStats_mixed`).
-/

namespace IMoviesCA

open AdminController

/-! ## One state -/

/-- The statistics of a table. -/
def statsOf (t : Table PublicCertificate) : AdminStats where
  numIssuedCertificates := t.rows.length
  numRevokedCertificates := numRevoked t
  currentSerialNum := currentSerialNum t

/-- Not more certificates were revoked than issued, and the last one that was issued has the number
that the others leave to it. -/
structure AdminStats.Consistent (stats : AdminStats) : Prop where
  revoked_le : stats.numRevokedCertificates ≤ stats.numIssuedCertificates
  serial : 0 < stats.numIssuedCertificates →
    stats.currentSerialNum.toNat = stats.numIssuedCertificates - 1

theorem numRevoked_le (t : Table PublicCertificate) : numRevoked t ≤ t.rows.length :=
  List.countP_le_length

theorem Numbered.length_rows {t : Table PublicCertificate} {n : ℕ} (h : Numbered t n) :
    t.rows.length = n := by
  have hlength := congrArg List.length h.keys
  rw [List.length_map, List.length_range] at hlength
  rw [← hlength]
  exact (List.length_map _).symm

/-- The number that is shown is one of the table, and none is larger. -/
theorem currentSerialNum_spec {t : Table PublicCertificate} (h : t.keys ≠ []) :
    currentSerialNum t ∈ t.keys ∧ ∀ k ∈ t.keys, k ≤ currentSerialNum t := by
  have hkeys : t.rows.map PublicCertificate.serialNr = t.keys := rfl
  have hsorted := List.pairwise_insertionSort (· ≥ ·) t.keys
  have hmem : ∀ k, k ∈ t.keys.insertionSort (· ≥ ·) ↔ k ∈ t.keys := fun k => List.mem_insertionSort _
  unfold currentSerialNum
  rw [hkeys]
  cases hs : t.keys.insertionSort (· ≥ ·) with
  | nil =>
    have hlength := List.length_insertionSort (· ≥ ·) t.keys
    rw [hs] at hlength
    exact absurd (List.length_eq_zero_iff.1 hlength.symm) h
  | cons m ms =>
    rw [hs] at hsorted hmem
    refine ⟨(hmem m).1 List.mem_cons_self, fun k hk => ?_⟩
    rcases List.mem_cons.1 ((hmem k).2 hk) with rfl | hk
    · exact UInt64.le_refl k
    · exact (List.pairwise_cons.1 hsorted).1 k hk

theorem currentSerialNum_of_numbered {t : Table PublicCertificate} {n : ℕ} (h : Numbered t n)
    (hn : 0 < n) : (currentSerialNum t).toNat = n - 1 := by
  have hlast : UInt64.ofNat (n - 1) ∈ t.keys := by
    rw [h.mem_keys, toNat_ofNat_of_lt (by have := h.le; omega)]
    omega
  obtain ⟨hmem, hmax⟩ := currentSerialNum_spec (List.ne_nil_of_mem hlast)
  have hlt := h.mem_keys.1 hmem
  have hle := UInt64.le_iff_toNat_le.1 (hmax _ hlast)
  rw [toNat_ofNat_of_lt (by have := h.le; omega)] at hle
  omega

theorem length_le_serial {t : Table PublicCertificate} {n : ℕ} (h : Numbered t n) :
    t.rows.length ≤ (currentSerialNum t).toNat + 1 := by
  rw [h.length_rows]
  by_cases hn : 0 < n
  · rw [currentSerialNum_of_numbered h hn]
    omega
  · omega

theorem consistent_statsOf {t : Table PublicCertificate} {n : ℕ} (h : Numbered t n) :
    (statsOf t).Consistent := by
  refine ⟨numRevoked_le t, fun hn => ?_⟩
  have hlength : (statsOf t).numIssuedCertificates = n := h.length_rows
  rw [hlength] at hn ⊢
  exact currentSerialNum_of_numbered h hn

/-! ## Three moments -/

variable {P : Platform} {s₀ : State} {c : Configuration}

/-- The request of process `i` has come and is not answered. -/
def Running (b : Configuration) (i : ℕ) (req : Request) : Prop :=
  ∃ op k, b.procs i = some (req, .op op k)

theorem Running.request {b : Configuration} {i : ℕ} {req : Request} (h : Running b i req) :
    b.request i = some req := by
  obtain ⟨op, k, hi⟩ := h
  simp [Config.request, hi]

theorem logs_history (P : Platform) : (system P).Logs State.history := by
  refine ⟨fun d s => rfl, fun i e ch s => ?_⟩
  rcases exec_cases i e ch s with hs | ⟨ev, -, hev⟩
  · exact Or.inl (congrArg State.history hs)
  · exact Or.inr ⟨ev, hev.history⟩

/-- The moment before an event: it is an operation of a request that is running. -/
theorem occurs_of_adds {b : Configuration} {e : Event} (h : (system P).Adds State.history b e) :
    (∃ s, Occurs e b.shared s) ∧ ∃ req, Running b e.pid req := by
  obtain ⟨i, req, op, ch, k, hi, hev⟩ := h.exec (logs_history P)
  have hev : (exec i op ch b.shared).2.history = e :: b.shared.history := hev
  rcases exec_cases i op ch b.shared with hs | ⟨e', rfl, he⟩
  · rw [hs] at hev
    exact absurd (congrArg List.length hev) (by simp)
  · rw [he.history] at hev
    obtain ⟨rfl, -⟩ := List.cons.inj hev
    exact ⟨⟨_, he⟩, req, op, k, hi⟩

theorem read_of_adds {b : Configuration} {i : ℕ} {t : Table PublicCertificate} {time : Time}
    (h : (system P).Adds State.history b (.certificatesRead i t time)) :
    t = b.shared.publicCertificates ∧ ∃ req, Running b i req := by
  obtain ⟨⟨s, hocc⟩, hrunning⟩ := occurs_of_adds h
  exact ⟨hocc.read.1, hrunning⟩

/-- The table never gets shorter. -/
theorem Evolves.length_rows_le {evs : List Event} {s s' : State} (h : Evolves evs s s') :
    s.publicCertificates.rows.length ≤ s'.publicCertificates.rows.length := by
  induction h with
  | refl => exact Nat.le_refl _
  | tick d _ ih => exact ih
  | event _ he ih =>
    cases he with
    | certificatesCommitted hc =>
      have hlength := congrArg List.length (Table.rows_of_commit hc)
      rw [List.length_append, List.length_map] at hlength
      exact ih.trans (Nat.le.intro hlength.symm)
    | _ => exact ih

theorem length_rows_of_reaches {b b' : Configuration} (h : (system P).Reaches b b') :
    b.shared.publicCertificates.rows.length ≤ b'.shared.publicCertificates.rows.length := by
  obtain ⟨evs, hevs⟩ := evolves_of_reaches h
  exact hevs.length_rows_le

/-- The moments of the three queries, in this order, and what they saw. -/
structure Queried (P : Platform) (s₀ : State) (as : List (Act Request Choice ℕ)) (c : Configuration)
    (i : ℕ) (req : Request) (stats : AdminStats) (b₁ b₂ b₃ : Configuration) : Prop where
  via : (system P).Via as (.initial s₀) [b₁, b₂, b₃] c
  running : ∀ b ∈ [b₁, b₂, b₃], Running b i req
  issued : stats.numIssuedCertificates =
    (statsOf b₁.shared.publicCertificates).numIssuedCertificates
  revoked : stats.numRevokedCertificates =
    (statsOf b₂.shared.publicCertificates).numRevokedCertificates
  serial : stats.currentSerialNum = (statsOf b₃.shared.publicCertificates).currentSerialNum

/-- The statistics are those of one state that there was during the request. -/
def OneState (P : Platform) (s₀ : State) (as : List (Act Request Choice ℕ)) (c : Configuration)
    (i : ℕ) (req : Request) (stats : AdminStats) : Prop :=
  ∃ b, (system P).Via as (.initial s₀) [b] c ∧ Running b i req ∧
    stats = statsOf b.shared.publicCertificates

/-- Nothing was committed to `public_certificates` between two moments. -/
def Undisturbed (b b' : Configuration) : Prop :=
  ∀ evs, b'.shared.history = evs ++ b.shared.history → KeepsCertificates evs

/-- A request that runs at a moment is the one that is answered later. -/
theorem Running.eq_of_via {as : List (Act Request Choice ℕ)} {b : Configuration} {i : ℕ}
    {req req' : Request} (h : Running b i req) (hvia : (system P).Via as (.initial s₀) [b] c)
    (hc : c.request i = some req') : req = req' := by
  obtain ⟨as₁, as₂, -, -, hrun⟩ := hvia
  have hlater := System.request_of_reaches (System.reaches_of_run hrun) h.request
  exact Option.some.inj (hlater.symm.trans hc)

/-- The numbers that `Index` shows come from three moments of the request. -/
theorem queried_of_run (h₀ : s₀.history = []) {as : List (Act Request Choice ℕ)}
    (hrun : (system P).run as (.initial s₀) = some c) {i : ℕ} {machineName uid : String}
    {stats : AdminStats}
    (hshown : c.procs i = some (.web machineName uid .adminIndex, .done (.adminStats stats))) :
    ∃ b₁ b₂ b₃, Queried P s₀ as c i (.web machineName uid .adminIndex) stats b₁ b₂ b₃ := by
  have hreq : c.request i = some (.web machineName uid .adminIndex) := by
    simp [Config.request, hshown]
  have hanswer : WebAnswer i uid .adminIndex (.adminStats stats) (c.shared.own i) :=
    answer_of_reaches h₀ (System.reaches_of_run hrun) hshown
  obtain ⟨t₁, t₂, t₃, u₁, u₂, u₃, rfl, hown⟩ := hanswer.stats stats rfl
  obtain ⟨bs, hvia, hadds⟩ := System.moments_of_log (logs_history P) (fun e => e.pid = i) h₀ hrun
  have hown' : c.shared.history.filter (fun e => e.pid = i) = _ := hown
  rw [hown'] at hadds
  obtain ⟨b₁, b₂, b₃, rfl, h₁, h₂, h₃⟩ := System.exists_moments hadds
  obtain ⟨rfl, req₁, hb₁⟩ := read_of_adds h₁
  obtain ⟨rfl, req₂, hb₂⟩ := read_of_adds h₂
  obtain ⟨rfl, req₃, hb₃⟩ := read_of_adds h₃
  refine ⟨b₁, b₂, b₃, hvia, ?_, rfl, rfl, rfl⟩
  have hsame : ∀ {b req}, b ∈ [b₁, b₂, b₃] → Running b i req →
      Running b i (.web machineName uid .adminIndex) := by
    intro b req hb hrunning
    rw [← hrunning.eq_of_via (hvia.of_mem hb) hreq]
    exact hrunning
  intro b hb
  have hcases : b = b₁ ∨ b = b₂ ∨ b = b₃ := by simpa using hb
  rcases hcases with rfl | rfl | rfl
  · exact hsame hb hb₁
  · exact hsame hb hb₂
  · exact hsame hb hb₃

/-! ## What is shown -/

namespace Queried

variable {as : List (Act Request Choice ℕ)} {i : ℕ} {req : Request} {stats : AdminStats}
  {b₁ b₂ b₃ : Configuration}

theorem reaches (h : Queried P s₀ as c i req stats b₁ b₂ b₃) :
    (system P).Reaches (.initial s₀) b₁ ∧ (system P).Reaches b₁ b₂ ∧ (system P).Reaches b₂ b₃ := by
  obtain ⟨as₁, as₂, -, hb₁, as₃, as₄, -, hb₂, as₅, as₆, -, hb₃, -⟩ := h.via
  exact ⟨System.reaches_of_run hb₁, System.reaches_of_run hb₂, System.reaches_of_run hb₃⟩

/-- What the three queries saw only grew, so that the serial number of the last one bounds them. -/
theorem le_serial (h : Queried P s₀ as c i req stats b₁ b₂ b₃) (h₀ : s₀.history = [])
    (hempty : s₀.publicCertificates = ∅) :
    stats.numIssuedCertificates ≤ stats.currentSerialNum.toNat + 1 ∧
      stats.numRevokedCertificates ≤ stats.currentSerialNum.toNat + 1 := by
  obtain ⟨hb₁, hb₂, hb₃⟩ := h.reaches
  have hledger := ledger_of_reaches h₀ hempty ((hb₁.trans hb₂).trans hb₃)
  have hserial := length_le_serial hledger.numbered
  have hlast : stats.currentSerialNum = currentSerialNum b₃.shared.publicCertificates := h.serial
  rw [← hlast] at hserial
  constructor
  · have hrows := length_rows_of_reaches (hb₂.trans hb₃)
    have hissued : stats.numIssuedCertificates = b₁.shared.publicCertificates.rows.length := h.issued
    omega
  · have hrows := length_rows_of_reaches hb₃
    have hrevoked : stats.numRevokedCertificates = numRevoked b₂.shared.publicCertificates := h.revoked
    have hle := numRevoked_le b₂.shared.publicCertificates
    omega

/-- Without a commit between the first and the last query the numbers are those of one state. -/
theorem eq_statsOf (h : Queried P s₀ as c i req stats b₁ b₂ b₃) (hnone : Undisturbed b₁ b₃) :
    stats = statsOf b₁.shared.publicCertificates := by
  obtain ⟨-, hb₂, hb₃⟩ := h.reaches
  obtain ⟨evs₂, hevs₂⟩ := evolves_of_reaches hb₂
  obtain ⟨evs₃, hevs₃⟩ := evolves_of_reaches hb₃
  have hkeeps : KeepsCertificates (evs₃ ++ evs₂) := hnone _ (hevs₂.trans hevs₃).history
  have htable₂ := hevs₂.publicCertificates fun j ws time hmem =>
    hkeeps j ws time (List.mem_append_right _ hmem)
  have htable₃ := hevs₃.publicCertificates fun j ws time hmem =>
    hkeeps j ws time (List.mem_append_left _ hmem)
  have hrevoked := h.revoked
  have hserial := h.serial
  rw [htable₂] at hrevoked
  rw [htable₃, htable₂] at hserial
  exact AdminStats.ext h.issued hrevoked hserial

end Queried

/-- What an answered `Index` shows: the numbers of three states, in the order of the queries; and of
one state, with the relations between its numbers, when nothing was committed in between. -/
theorem adminStats_of_run (P : Platform) {s₀ : State} (h₀ : s₀.history = [])
    (hempty : s₀.publicCertificates = ∅) {as : List (Act Request Choice ℕ)} {c : Configuration}
    (hrun : (system P).run as (.initial s₀) = some c) {i : ℕ} {machineName uid : String}
    {stats : AdminStats}
    (hshown : c.procs i = some (.web machineName uid .adminIndex, .done (.adminStats stats))) :
    ∃ b₁ b₂ b₃, Queried P s₀ as c i (.web machineName uid .adminIndex) stats b₁ b₂ b₃ ∧
      (Undisturbed b₁ b₃ → OneState P s₀ as c i (.web machineName uid .adminIndex) stats ∧
        stats.Consistent) ∧
      stats.numIssuedCertificates ≤ stats.currentSerialNum.toNat + 1 ∧
      stats.numRevokedCertificates ≤ stats.currentSerialNum.toNat + 1 := by
  obtain ⟨b₁, b₂, b₃, hqueried⟩ := queried_of_run h₀ hrun hshown
  refine ⟨b₁, b₂, b₃, hqueried, ?_, hqueried.le_serial h₀ hempty⟩
  intro hnone
  have hstats := hqueried.eq_statsOf hnone
  constructor
  · exact ⟨b₁, hqueried.via.of_mem (by simp), hqueried.running b₁ (by simp), hstats⟩
  · rw [hstats]
    exact consistent_statsOf (ledger_of_reaches h₀ hempty hqueried.reaches.1).numbered

section

open Deployment

/-- Process `i` gets a certificate, in `n` operations. -/
def issueIn (i n : ℕ) : List (Act Request Choice ℕ) :=
  .arrive i (.api "aslcert01" (.issue certRequest)) :: steps i n

/-- The page with the statistics. -/
def statsRequest : Request := .web "aslcert01" "a3" .adminIndex

/-- A certificate is issued, and the dashboard is shown. -/
def issueThenIndex : List (Act Request Choice ℕ) :=
  issueIn 0 18 ++ .arrive 1 statsRequest :: steps 1 3

/-- After the first query another certificate is issued, and revoked. -/
def indexAcrossIssue : List (Act Request Choice ℕ) :=
  issueIn 0 18 ++ .arrive 1 statsRequest :: steps 1 1 ++ issueIn 2 19 ++
    .arrive 3 (.api "aslcert01" (.revoke ⟨"a3"⟩)) :: steps 3 4 ++ steps 1 2

/-- The dashboard shows these statistics to process 1 at the end of a run. -/
theorem run_of_shows (as : List (Act Request Choice ℕ)) (stats : AdminStats)
    (h : ((system platform).run as (.initial (installed users))).any (fun c =>
      decide (c.answer 1 = some (statsRequest, .adminStats stats))) = true) :
    ∃ c, (system platform).run as (.initial (installed users)) = some c ∧
      c.procs 1 = some (statsRequest, .done (.adminStats stats)) := by
  obtain ⟨c, hc, hshown⟩ := (Option.any_eq_true _ _).1 h
  exact ⟨c, hc, Config.procs_of_answer (of_decide_eq_true hshown)⟩

theorem adminStats_issue : ∃ c b₁ b₂ b₃,
    Queried platform (installed users) issueThenIndex c 1 statsRequest ⟨1, 0, 0⟩ b₁ b₂ b₃ := by
  obtain ⟨c, hc, hshown⟩ := run_of_shows issueThenIndex ⟨1, 0, 0⟩ (by decide +kernel)
  obtain ⟨b₁, b₂, b₃, hqueried, -⟩ := adminStats_of_run platform rfl rfl hc hshown
  exact ⟨c, b₁, b₂, b₃, hqueried⟩

/-- One certificate is shown as issued, and two as revoked. -/
theorem adminStats_mixed : ¬ ∀ (P : Platform) (s₀ : State) (as : List (Act Request Choice ℕ))
    (c : Configuration) (i : ℕ) (machineName uid : String) (stats : AdminStats), s₀.history = [] →
    s₀.publicCertificates = ∅ → (system P).run as (.initial s₀) = some c →
    c.procs i = some (.web machineName uid .adminIndex, .done (.adminStats stats)) →
      OneState P s₀ as c i (.web machineName uid .adminIndex) stats := by
  intro hclaim
  obtain ⟨c, hc, hshown⟩ := run_of_shows indexAcrossIssue ⟨1, 2, 1⟩ (by decide +kernel)
  obtain ⟨b, -, -, hstats⟩ := hclaim platform _ _ c 1 "aslcert01" "a3" _ rfl rfl hc hshown
  have hissued := congrArg AdminStats.numIssuedCertificates hstats
  have hrevoked := congrArg AdminStats.numRevokedCertificates hstats
  have hle := numRevoked_le b.shared.publicCertificates
  have hone : 1 = b.shared.publicCertificates.rows.length := hissued
  have htwo : 2 = numRevoked b.shared.publicCertificates := hrevoked
  omega

end

end IMoviesCA
