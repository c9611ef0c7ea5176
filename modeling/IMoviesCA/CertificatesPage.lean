import IMoviesCA.Lib.Watch
import IMoviesCA.AppendOnly

/-!
# The page of the certificates

`CertController.Index` lists the certificates of a user as valid, revoked or expired, and the page is also
shown when a form for a new certificate or for a download is refused.  The three lists are queries of
their own, carried out when the page enumerates them, each row against a reading of the clock of its own;
the servers go on meanwhile.  The queries share one context, which keeps a row as it was first read.

Whatever the servers do, the page lists at most one certificate as valid, which was live at one moment; no
certificate is listed as revoked and also as valid or expired; and none of the user is left out
(`page_of_reaches`).  A certificate that is revoked after the first query is still listed as valid.
-/

namespace IMoviesCA

open CertController

variable {P : Platform} {α β : Type} {i : ℕ} {uid : String} {c c' : Configuration}

/-! ## A part of a run -/

theorem of_watches_action_bind {p : Action α} {f : α → Action β} {b : β}
    (h : (system P).Watches i (p >>= f).run c (.ok b) c') : ∃ a c₁,
      (system P).Watches i p.run c (.ok a) c₁ ∧ (system P).Watches i (f a).run c₁ (.ok b) c' := by
  obtain ⟨x, c₁, hp, hf⟩ := System.of_watches_bind (f := ExceptT.bindCont f) h
  cases x with
  | ok a => exact ⟨a, c₁, hp, hf⟩
  | error fault => cases hf

theorem of_watches_pure {a b : α} (h : (system P).Watches i (pure a : Action α).run c (.ok b) c') :
    a = b ∧ (system P).Reaches c c' := by
  obtain ⟨hab, hreach⟩ := System.of_watches_done h
  exact ⟨Except.ok.inj hab, hreach⟩

/-- An operation that was carried out has its value at that moment. -/
theorem of_watches_call {e : Op} (he : e.Throws) {v : e.Val}
    (h : (system P).Watches i (call e).run c (.ok v) c') :
    (system P).Reaches c c' ∧ ∃ c₁, (system P).Reaches c c₁ ∧ (system P).Reaches c₁ c' ∧
      (e.run i c₁.shared).1 = .ok v := by
  obtain ⟨ch, c₁, hreach, hrest⟩ := System.of_watches_op h
  obtain ⟨hv, hrest⟩ := System.of_watches_done hrest
  refine ⟨hreach.trans hrest, c₁, hreach, hrest, ?_⟩
  have hv : (exec i e ch c₁.shared).1 = .ok v := hv
  cases ch with
  | ok => exact hv
  | throws written =>
    rw [exec, he written] at hv
    cases hv

theorem of_watches_clock {now : Time} (h : (system P).Watches i clock.run c (.ok now) c') :
    (system P).Reaches c c' ∧ c.shared.now ≤ now ∧ now ≤ c'.shared.now := by
  obtain ⟨hreach, c₁, hc₁, hc', hnow⟩ := of_watches_call (fun _ => rfl) h
  obtain rfl := Except.ok.inj hnow
  exact ⟨hreach, now_le_of_reaches hc₁, now_le_of_reaches hc'⟩

theorem of_watches_readCertificates {t : Table PublicCertificate}
    (h : (system P).Watches i readCertificates.run c (.ok t) c') : ∃ c₁, (system P).Reaches c c₁ ∧
      (system P).Reaches c₁ c' ∧ t = c₁.shared.publicCertificates := by
  obtain ⟨-, c₁, hc₁, hc', ht⟩ := of_watches_call (fun _ => rfl) h
  exact ⟨c₁, hc₁, hc', (Except.ok.inj ht).symm⟩

/-- A request that was answered with something else than status 500 did not throw. -/
theorem of_watches_answer {p : Action Reply} {reply : Reply} (hreply : reply ≠ .serverError)
    (h : (system P).Watches i (answer p) c reply c') : (system P).Watches i p.run c (.ok reply) c' := by
  obtain ⟨x, c₁, hp, hrest⟩ := System.of_watches_bind h
  cases x with
  | error fault => exact absurd (System.of_watches_done hrest).1.symm hreply
  | ok r =>
    obtain ⟨rfl, hreach⟩ := System.of_watches_done hrest
    exact hp.tail hreach

/-! ## The loops -/

/-- The rows that the page lists as valid. -/
structure ListsValid (cs ps : List PublicCertificate) (c c' : Configuration) : Prop where
  sublist : ps.Sublist cs
  live : ∀ p ∈ ps, Live c.shared.now p
  complete : ∀ p ∈ cs, p.isRevoked = false → p.parse.notBefore ≤ c.shared.now → p ∈ ps ∨
    p.parse.notAfter < c'.shared.now

variable {cs ps : List PublicCertificate} {p : PublicCertificate} {c₁ : Configuration}

theorem ListsValid.listed (h : ListsValid cs ps c₁ c') (hnow : c.shared.now ≤ c₁.shared.now)
    (hlive : Live c.shared.now p) : ListsValid (p :: cs) (p :: ps) c c' where
  sublist := h.sublist.cons_cons p
  live q hq := by
    rcases List.mem_cons.1 hq with rfl | hq
    · exact hlive
    · exact ⟨(h.live q hq).1, hnow.trans (h.live q hq).2⟩
  complete q hq hrev hbefore := by
    rcases List.mem_cons.1 hq with rfl | hq
    · exact Or.inl List.mem_cons_self
    · exact (h.complete q hq hrev (hbefore.trans hnow)).imp_left (List.mem_cons_of_mem _)

/-- A row is left out only when it was revoked or has expired. -/
theorem ListsValid.leftOut (h : ListsValid cs ps c₁ c') (hnow : c.shared.now ≤ c₁.shared.now)
    (hp : p.isRevoked = false → p.parse.notBefore ≤ c.shared.now →
      p.parse.notAfter < c'.shared.now) : ListsValid (p :: cs) ps c c' where
  sublist := h.sublist.cons p
  live q hq := ⟨(h.live q hq).1, hnow.trans (h.live q hq).2⟩
  complete q hq hrev hbefore := by
    rcases List.mem_cons.1 hq with rfl | hq
    · exact Or.inr (hp hrev hbefore)
    · exact h.complete q hq hrev (hbefore.trans hnow)

theorem ListsValid.head (h : ListsValid cs ps c₁ c') (hnow : c.shared.now ≤ c₁.shared.now) :
    ListsValid cs ps c c' where
  sublist := h.sublist
  live q hq := ⟨(h.live q hq).1, hnow.trans (h.live q hq).2⟩
  complete q hq hrev hbefore := h.complete q hq hrev (hbefore.trans hnow)

theorem of_watches_validLoop {cs : List PublicCertificate} : ∀ {valid valid' : List Certificate}
    {c : Configuration}, (system P).Watches i (validLoop P cs valid).run c (.ok valid') c' →
      (system P).Reaches c c' ∧
        ∃ ps, valid' = valid ++ ps.map (.ofPublicCertificate P) ∧ ListsValid cs ps c c' := by
  induction cs with
  | nil =>
    intro valid valid' c h
    obtain ⟨rfl, hreach⟩ := of_watches_pure h
    exact ⟨hreach, [], by simp, ⟨.slnil, by simp, by simp⟩⟩
  | cons p cs ih =>
    intro valid valid' c h
    obtain ⟨now₁, c₁, hclock, h⟩ := of_watches_action_bind h
    obtain ⟨hreach₁, hle₁, hle₁'⟩ := of_watches_clock hclock
    have hnow₁ := now_le_of_reaches hreach₁
    split_ifs at h with hbefore
    · obtain ⟨now₂, c₂, hclock, h⟩ := of_watches_action_bind h
      obtain ⟨hreach₂, hle₂, hle₂'⟩ := of_watches_clock hclock
      have hnow₂ := hnow₁.trans (now_le_of_reaches hreach₂)
      split_ifs at h with hvalid
      · obtain ⟨hreach, ps, rfl, hps⟩ := ih h
        refine ⟨hreach₁.trans (hreach₂.trans hreach), p :: ps, by simp, ?_⟩
        exact hps.listed hnow₂ ⟨hvalid.2, (hnow₁.trans hle₂).trans hvalid.1⟩
      · obtain ⟨hreach, ps, rfl, hps⟩ := ih h
        refine ⟨hreach₁.trans (hreach₂.trans hreach), ps, rfl, hps.leftOut hnow₂ ?_⟩
        intro hrev _
        have hlt : p.parse.notAfter < now₂ := lt_of_not_ge fun hle => hvalid ⟨hle, hrev⟩
        exact lt_of_lt_of_le hlt (hle₂'.trans (now_le_of_reaches hreach))
    · obtain ⟨hreach, ps, rfl, hps⟩ := ih h
      refine ⟨hreach₁.trans hreach, ps, rfl, hps.leftOut hnow₁ ?_⟩
      exact fun _ hle => absurd (hle.trans hle₁) hbefore

/-- The rows that the page lists as expired. -/
structure ListsExpired (cs ps : List PublicCertificate) (c c' : Configuration) : Prop where
  sublist : ps.Sublist cs
  expired : ∀ p ∈ ps, p.isRevoked = false ∧ p.parse.notAfter < c'.shared.now
  complete : ∀ p ∈ cs, p.isRevoked = false → p.parse.notAfter < c.shared.now → p ∈ ps

theorem ListsExpired.head (h : ListsExpired cs ps c₁ c') (hnow : c.shared.now ≤ c₁.shared.now) :
    ListsExpired cs ps c c' where
  sublist := h.sublist
  expired := h.expired
  complete q hq hrev hlt := h.complete q hq hrev (lt_of_lt_of_le hlt hnow)

theorem ListsExpired.tail (h : ListsExpired cs ps c c₁) (hnow : c₁.shared.now ≤ c'.shared.now) :
    ListsExpired cs ps c c' where
  sublist := h.sublist
  expired q hq := ⟨(h.expired q hq).1, lt_of_lt_of_le (h.expired q hq).2 hnow⟩
  complete := h.complete

theorem of_watches_expiredLoop {cs : List PublicCertificate} : ∀ {expired expired' : List Certificate}
    {c : Configuration}, (system P).Watches i (expiredLoop P cs expired).run c (.ok expired') c' →
      (system P).Reaches c c' ∧
        ∃ ps, expired' = expired ++ ps.map (.ofPublicCertificate P) ∧ ListsExpired cs ps c c' := by
  induction cs with
  | nil =>
    intro expired expired' c h
    obtain ⟨rfl, hreach⟩ := of_watches_pure h
    exact ⟨hreach, [], by simp, ⟨.slnil, by simp, by simp⟩⟩
  | cons p cs ih =>
    intro expired expired' c h
    obtain ⟨now₁, c₁, hclock, h⟩ := of_watches_action_bind h
    obtain ⟨hreach₁, hle₁, hle₁'⟩ := of_watches_clock hclock
    have hnow₁ := now_le_of_reaches hreach₁
    split_ifs at h with hexpired
    · obtain ⟨hreach, ps, rfl, hps⟩ := ih h
      have hnow := now_le_of_reaches hreach
      refine ⟨hreach₁.trans hreach, p :: ps, by simp, hps.sublist.cons_cons p, ?_, ?_⟩
      · intro q hq
        rcases List.mem_cons.1 hq with rfl | hq
        · exact ⟨hexpired.2, lt_of_lt_of_le hexpired.1 (hle₁'.trans hnow)⟩
        · exact hps.expired q hq
      · intro q hq hrev hlt
        rcases List.mem_cons.1 hq with rfl | hq
        · exact List.mem_cons_self
        · exact List.mem_cons_of_mem _ (hps.complete q hq hrev (lt_of_lt_of_le hlt hnow₁))
    · obtain ⟨hreach, ps, rfl, hps⟩ := ih h
      refine ⟨hreach₁.trans hreach, ps, rfl, hps.sublist.cons p, hps.expired, ?_⟩
      intro q hq hrev hlt
      rcases List.mem_cons.1 hq with rfl | hq
      · exact absurd ⟨lt_of_lt_of_le hlt hle₁, hrev⟩ hexpired
      · exact hps.complete q hq hrev (lt_of_lt_of_le hlt hnow₁)

/-! ## The rows -/

theorem Evolves.time_le {evs : List Event} {s s' : State} (h : Evolves evs s s') {j : ℕ}
    {ws : List CertificateWrite} {t : Time} (he : .certificatesCommitted j ws t ∈ evs) : t ≤ s'.now := by
  induction h with
  | refl => cases he
  | tick d h ih => exact (ih he).trans (Nat.le_add_right _ _)
  | event h hocc ih =>
    rw [hocc.now]
    rcases List.mem_cons.1 he with rfl | he
    · cases hocc
      exact le_refl _
    · exact ih he

/-- No certificate in the table is of a later time. -/
theorem notBefore_le_of_reaches {s₀ : State} (h₀ : s₀.history = []) (hempty : s₀.publicCertificates = ∅)
    (h : (system P).Reaches (.initial s₀) c) {p : PublicCertificate}
    (hp : p ∈ c.shared.publicCertificates.rows) : p.parse.notBefore ≤ c.shared.now := by
  obtain ⟨row, hrow, hlater⟩ := exists_of_forall₂_right (ledger_of_reaches h₀ hempty h).rows hp
  obtain ⟨e, he, hissued⟩ := List.mem_filterMap.1 (List.mem_reverse.1 hrow)
  obtain ⟨m, r, I, rfl, hcommit, -⟩ := issuance_of_issued h₀ h he hissued
  obtain ⟨evs, hevs⟩ := evolves_of_reaches h
  have hmem : .certificatesCommitted e.pid I.writes I.time ∈ evs := by
    have hhistory := hevs.history
    rw [show (Config.initial s₀ : Configuration).shared.history = [] from h₀, List.append_nil] at hhistory
    rw [← hhistory]
    exact (State.mem_own.1 hcommit).1
  have hbefore : p.parse.notBefore = wholeSeconds I.notBefore :=
    congrArg X509Certificate2.notBefore hlater.certificate
  rw [hbefore]
  exact (Nat.div_mul_le_self _ _).trans
    (I.notBefore_le.trans (I.now_le.trans (hevs.time_le hmem)))

theorem mem_certificatesOf {t : Table PublicCertificate} :
    p ∈ certificatesOf uid t ↔ p ∈ t.rows ∧ p.uid = uid := by
  rw [certificatesOf, List.mem_filter, beq_iff_eq]

/-- At most one certificate of a user is live. -/
theorem length_le_one_of_live {s : State} (h : Ledger s) {ps : List PublicCertificate}
    (hsub : ps.Sublist (certificatesOf uid s.publicCertificates)) (hlive : ∀ p ∈ ps, Live s.now p) :
    ps.length ≤ 1 := by
  have hrows : s.publicCertificates.rows.Nodup := .of_map _ s.publicCertificates.nodup
  have hnodup : ps.Nodup := (hrows.filter _).sublist hsub
  have heq : ∀ p ∈ ps, ∀ q ∈ ps, p = q := by
    intro p hp q hq
    obtain ⟨hprow, hpuid⟩ := mem_certificatesOf.1 (hsub.subset hp)
    obtain ⟨hqrow, hquid⟩ := mem_certificatesOf.1 (hsub.subset hq)
    exact h.live_unique hprow hqrow (hpuid.trans hquid.symm) (hlive p hp) (hlive q hq)
  cases ps with
  | nil => exact Nat.zero_le _
  | cons p ps =>
    cases ps with
    | nil => exact le_refl _
    | cons q ps =>
      have hne := (List.nodup_cons.1 hnodup).1
      rw [heq p List.mem_cons_self q (by simp)] at hne
      exact absurd List.mem_cons_self hne

/-! ## The entities of one context -/

variable {ts rows : List PublicCertificate} {q : PublicCertificate}

/-- A context tracks one entity for each serial number. -/
def OneEntity (ts : List PublicCertificate) : Prop :=
  ∀ p ∈ ts, ∀ q ∈ ts, p.serialNr = q.serialNr → p = q

/-- An entity of a query was tracked before, or is a row that was not. -/
theorem of_mem_entities (h : q ∈ entities ts rows) :
    q ∈ ts ∨ q ∈ rows ∧ ∀ t ∈ ts, t.serialNr ≠ q.serialNr := by
  obtain ⟨row, hrow, rfl⟩ := List.mem_map.1 h
  cases hfind : ts.find? fun t => t.serialNr == row.serialNr with
  | some t => exact Or.inl (List.mem_of_find?_eq_some hfind)
  | none =>
    refine Or.inr ⟨hrow, fun t ht heq => ?_⟩
    have hne := List.find?_eq_none.1 hfind t ht
    exact hne (beq_iff_eq.2 heq)

/-- A tracked entity whose row is read again is returned as it was. -/
theorem mem_entities_of_tracked (hone : OneEntity ts) (hp : p ∈ ts) (hq : q ∈ rows)
    (hserial : q.serialNr = p.serialNr) : p ∈ entities ts rows := by
  refine List.mem_map.2 ⟨q, hq, ?_⟩
  cases hfind : ts.find? fun t => t.serialNr == q.serialNr with
  | none =>
    have hne := List.find?_eq_none.1 hfind p hp
    exact absurd (beq_iff_eq.2 hserial.symm) hne
  | some t =>
    have ht := List.find?_some hfind
    exact hone t (List.mem_of_find?_eq_some hfind) p hp ((beq_iff_eq.1 ht).trans hserial)

theorem oneEntity_certificatesOf (uid : String) (t : Table PublicCertificate) :
    OneEntity (certificatesOf uid t) := fun _ hp _ hq heq =>
  Table.eq_of_key_eq (mem_certificatesOf.1 hp).1 (mem_certificatesOf.1 hq).1 heq

/-- A further query keeps it so. -/
theorem OneEntity.append (hone : OneEntity ts) (hrows : OneEntity rows) :
    OneEntity (ts ++ entities ts rows) := by
  have hcases : ∀ p ∈ ts ++ entities ts rows,
      p ∈ ts ∨ p ∈ rows ∧ ∀ t ∈ ts, t.serialNr ≠ p.serialNr := by
    intro p hp
    rcases List.mem_append.1 hp with hp | hp
    · exact Or.inl hp
    · exact of_mem_entities hp
  intro p hp q hq heq
  rcases hcases p hp with hp | ⟨hp, hpnew⟩
  · rcases hcases q hq with hq | ⟨-, hqnew⟩
    · exact hone p hp q hq heq
    · exact absurd heq (hqnew p hp)
  · rcases hcases q hq with hq | ⟨hq, -⟩
    · exact absurd heq.symm (hpnew q hq)
    · exact hrows p hp q hq heq

/-! ## The page -/

/-- The row of a certificate of the user at a moment between the two. -/
def SeenBetween (P : Platform) (uid : String) (p : PublicCertificate) (c c' : Configuration) : Prop :=
  ∃ b, (system P).Reaches c b ∧ (system P).Reaches b c' ∧ p ∈ b.shared.publicCertificates.rows ∧
    p.uid = uid

theorem SeenBetween.mono {b b' : Configuration} (h : SeenBetween P uid p b b')
    (hc : (system P).Reaches c b) (hc' : (system P).Reaches b' c') : SeenBetween P uid p c c' := by
  obtain ⟨m, hm, hm', hp⟩ := h
  exact ⟨m, hc.trans hm, hm'.trans hc', hp⟩

theorem seenBetween_of_mem (hc : (system P).Reaches c c₁) (hc' : (system P).Reaches c₁ c')
    (hp : p ∈ certificatesOf uid c₁.shared.publicCertificates) : SeenBetween P uid p c c' :=
  ⟨c₁, hc, hc', (mem_certificatesOf.1 hp).1, (mem_certificatesOf.1 hp).2⟩

/-- A row that was revoked at a moment is the row of a later one. -/
theorem mem_of_seenRevoked (h : SeenBetween P uid p c c') (hrev : p.isRevoked = true) :
    p ∈ c'.shared.publicCertificates.rows ∧ p.uid = uid := by
  obtain ⟨b, -, hb, hp, huid⟩ := h
  obtain ⟨q, hq, hlater⟩ := extends_of_reaches hb p hp
  rw [hlater.eq_of_revoked hrev] at hq
  exact ⟨hq, huid⟩

/-- What the page shows to a user, between two moments: the lists are those of these rows. -/
structure PageShows (P : Platform) (uid : String) (data : CertificatesData)
    (vs rs es : List PublicCertificate) (c c' : Configuration) : Prop where
  lists : data = ⟨vs.map (.ofPublicCertificate P), rs.map (.ofPublicCertificate P),
    es.map (.ofPublicCertificate P)⟩
  /-- One certificate at most is listed as valid, and it was live at a moment. -/
  valid : vs.length ≤ 1 ∧ ∃ b, (system P).Reaches c b ∧ (system P).Reaches b c' ∧
    ∀ p ∈ vs, p ∈ b.shared.publicCertificates.rows ∧ p.uid = uid ∧ Live b.shared.now p
  revoked : ∀ p ∈ rs, p.isRevoked = true ∧ p ∈ c'.shared.publicCertificates.rows ∧ p.uid = uid
  expired : ∀ p ∈ es, p.isRevoked = false ∧ p.parse.notAfter < c'.shared.now ∧ SeenBetween P uid p c c'
  /-- No certificate that is listed as revoked is in another list. -/
  disjoint : ∀ p ∈ rs, ∀ q ∈ vs ++ es, q.serialNr ≠ p.serialNr
  /-- No certificate is left out. -/
  complete : ∀ p ∈ c.shared.publicCertificates.rows, p.uid = uid → ∃ q ∈ vs ++ rs ++ es, Later p q
  /-- What was revoked before is listed as revoked. -/
  revokedBefore : ∀ p ∈ c.shared.publicCertificates.rows, p.uid = uid → p.isRevoked = true → p ∈ rs
  /-- What is live all the time is listed as valid. -/
  liveThroughout : ∀ p ∈ c.shared.publicCertificates.rows, p.uid = uid →
    p ∈ c'.shared.publicCertificates.rows → Live c'.shared.now p → p ∈ vs

/-- A run of the page: the queries at `c₁`, `c₃` and `c₄`, the loop over the valid certificates from `c₁`
to `c₂` and the one over the expired from `c₄` to the end. -/
structure PageRun (P : Platform) (uid : String)
    (forValid forRevoked forExpired vs es : List PublicCertificate)
    (c c₁ c₂ c₃ c₄ c' : Configuration) : Prop where
  first : (system P).Reaches c c₁
  loop : (system P).Reaches c₁ c₂
  second : (system P).Reaches c₂ c₃
  third : (system P).Reaches c₃ c₄
  last : (system P).Reaches c₄ c'
  rows₁ : forValid = certificatesOf uid c₁.shared.publicCertificates
  rows₃ : forRevoked = entities forValid (certificatesOf uid c₃.shared.publicCertificates)
  rows₄ : forExpired =
    entities (forValid ++ forRevoked) (certificatesOf uid c₄.shared.publicCertificates)
  valid : ListsValid forValid vs c₁ c₂
  expired : ListsExpired forExpired es c₄ c'

namespace PageRun

variable {forValid forRevoked forExpired vs es : List PublicCertificate} {c₂ c₃ c₄ : Configuration}

theorem oneEntity (h : PageRun P uid forValid forRevoked forExpired vs es c c₁ c₂ c₃ c₄ c') :
    OneEntity (forValid ++ forRevoked ++ forExpired) := by
  obtain ⟨-, -, -, -, -, rfl, rfl, rfl, -, -⟩ := h
  have hone := oneEntity_certificatesOf uid c₁.shared.publicCertificates
  exact (hone.append (oneEntity_certificatesOf uid _)).append (oneEntity_certificatesOf uid _)

theorem seen (h : PageRun P uid forValid forRevoked forExpired vs es c c₁ c₂ c₃ c₄ c') :
    ∀ p ∈ forValid ++ forRevoked ++ forExpired, SeenBetween P uid p c c' := by
  have hafter₃ := h.third.trans h.last
  have hvalid : ∀ p ∈ forValid, SeenBetween P uid p c c' := fun p hp =>
    seenBetween_of_mem h.first (h.loop.trans (h.second.trans hafter₃)) (h.rows₁ ▸ hp)
  have hrevoked : ∀ p ∈ forRevoked, SeenBetween P uid p c c' := by
    intro p hp
    rw [h.rows₃] at hp
    rcases of_mem_entities hp with hp | ⟨hp, -⟩
    · exact hvalid p hp
    · exact seenBetween_of_mem (h.first.trans (h.loop.trans h.second)) hafter₃ hp
  have hboth : ∀ p ∈ forValid ++ forRevoked, SeenBetween P uid p c c' := fun p hp =>
    (List.mem_append.1 hp).elim (hvalid p) (hrevoked p)
  intro p hp
  rcases List.mem_append.1 hp with hp | hp
  · exact hboth p hp
  · rw [h.rows₄] at hp
    rcases of_mem_entities hp with hp | ⟨hp, -⟩
    · exact hboth p hp
    · exact seenBetween_of_mem (h.first.trans (h.loop.trans (h.second.trans h.third))) h.last hp

/-- A row from before is tracked since the first query. -/
theorem tracked (h : PageRun P uid forValid forRevoked forExpired vs es c c₁ c₂ c₃ c₄ c')
    (hp : p ∈ c.shared.publicCertificates.rows) (huid : p.uid = uid) :
    ∃ q ∈ forValid, Later p q ∧ q ∈ forRevoked ∧ q ∈ forExpired := by
  obtain ⟨q, hq, hlater⟩ := extends_of_reaches h.first p hp
  have hvalid : q ∈ forValid := by
    rw [h.rows₁]
    exact mem_certificatesOf.2 ⟨hq, hlater.uid.trans huid⟩
  have hone : OneEntity (forValid ++ forRevoked) := fun p hp q hq =>
    h.oneEntity p (List.mem_append_left _ hp) q (List.mem_append_left _ hq)
  obtain ⟨q₃, hq₃, hlater₃⟩ := extends_of_reaches (h.loop.trans h.second) q hq
  obtain ⟨q₄, hq₄, hlater₄⟩ := extends_of_reaches h.third q₃ hq₃
  have huid₃ := hlater₃.uid.trans (hlater.uid.trans huid)
  refine ⟨q, hvalid, hlater, ?_, ?_⟩
  · rw [h.rows₃]
    exact mem_entities_of_tracked (fun p hp q hq => hone p (List.mem_append_left _ hp) q
      (List.mem_append_left _ hq)) hvalid (mem_certificatesOf.2 ⟨hq₃, huid₃⟩) hlater₃.serialNr
  · rw [h.rows₄]
    exact mem_entities_of_tracked hone (List.mem_append_left _ hvalid)
      (mem_certificatesOf.2 ⟨hq₄, hlater₄.uid.trans huid₃⟩) (hlater₄.serialNr.trans hlater₃.serialNr)

/-- What is listed as valid. -/
theorem valid_live (h : PageRun P uid forValid forRevoked forExpired vs es c c₁ c₂ c₃ c₄ c') {s₀ : State}
    (h₀ : s₀.history = []) (hempty : s₀.publicCertificates = ∅)
    (hreach : (system P).Reaches (.initial s₀) c) : vs.length ≤ 1 ∧
      ∃ b, (system P).Reaches c b ∧ (system P).Reaches b c' ∧
        ∀ p ∈ vs, p ∈ b.shared.publicCertificates.rows ∧ p.uid = uid ∧ Live b.shared.now p := by
  have hsub := h.valid.sublist
  rw [h.rows₁] at hsub
  refine ⟨length_le_one_of_live (ledger_of_reaches h₀ hempty (hreach.trans h.first)) hsub h.valid.live,
    c₁, h.first, h.loop.trans (h.second.trans (h.third.trans h.last)), fun p hp => ?_⟩
  obtain ⟨hrow, huid⟩ := mem_certificatesOf.1 (hsub.subset hp)
  exact ⟨hrow, huid, h.valid.live p hp⟩

/-- A row from before that is not revoked at the first query is listed as valid, unless it expires; and
then it is listed as expired. -/
theorem listed_of_not_revoked (h : PageRun P uid forValid forRevoked forExpired vs es c c₁ c₂ c₃ c₄ c')
    {s₀ : State} (h₀ : s₀.history = []) (hempty : s₀.publicCertificates = ∅)
    (hreach : (system P).Reaches (.initial s₀) c) (hp : p ∈ forValid) (hpe : p ∈ forExpired)
    (hrev : p.isRevoked = false) : p ∈ vs ∨ p ∈ es ∧ p.parse.notAfter < c'.shared.now := by
  have hrow := hp
  rw [h.rows₁] at hrow
  have hbefore := notBefore_le_of_reaches h₀ hempty (hreach.trans h.first) (mem_certificatesOf.1 hrow).1
  rcases h.valid.complete p hp hrev hbefore with hlisted | hlt
  · exact Or.inl hlisted
  · have hlt₄ := lt_of_lt_of_le hlt (now_le_of_reaches (h.second.trans h.third))
    exact Or.inr ⟨h.expired.complete p hpe hrev hlt₄, lt_of_lt_of_le hlt₄ (now_le_of_reaches h.last)⟩

/-- What the page shows when it has run so. -/
theorem pageShows (h : PageRun P uid forValid forRevoked forExpired vs es c c₁ c₂ c₃ c₄ c') {s₀ : State}
    (h₀ : s₀.history = []) (hempty : s₀.publicCertificates = ∅)
    (hreach : (system P).Reaches (.initial s₀) c) : PageShows P uid
      ⟨vs.map (.ofPublicCertificate P), (forRevoked.filter fun c => c.isRevoked).map
        (.ofPublicCertificate P), es.map (.ofPublicCertificate P)⟩
      vs (forRevoked.filter fun c => c.isRevoked) es c c' where
  lists := rfl
  valid := h.valid_live h₀ hempty hreach
  revoked p hp := by
    obtain ⟨hp, hrev⟩ := List.mem_filter.1 hp
    exact ⟨hrev, mem_of_seenRevoked (h.seen p (by simp [hp])) hrev⟩
  expired p hp := by
    obtain ⟨hrev, hlt⟩ := h.expired.expired p hp
    exact ⟨hrev, hlt, h.seen p (List.mem_append_right _ (h.expired.sublist.subset hp))⟩
  disjoint p hp q hq heq := by
    obtain ⟨hp, hrev⟩ := List.mem_filter.1 hp
    have hq' : q ∈ forValid ++ forRevoked ++ forExpired ∧ q.isRevoked = false := by
      rcases List.mem_append.1 hq with hq | hq
      · exact ⟨by simp [h.valid.sublist.subset hq], (h.valid.live q hq).1⟩
      · exact ⟨by simp [h.expired.sublist.subset hq], (h.expired.expired q hq).1⟩
    have heq := h.oneEntity q hq'.1 p (by simp [hp]) heq
    rw [← heq, hq'.2] at hrev
    cases hrev
  complete p hp huid := by
    obtain ⟨q, hvalid, hlater, hrevoked, hexpired⟩ := h.tracked hp huid
    cases hrev : q.isRevoked with
    | true => exact ⟨q, by simp [hrevoked, hrev], hlater⟩
    | false =>
      rcases h.listed_of_not_revoked h₀ hempty hreach hvalid hexpired hrev with hq | ⟨hq, -⟩
      · exact ⟨q, by simp [hq], hlater⟩
      · exact ⟨q, by simp [hq], hlater⟩
  revokedBefore p hp huid hrev := by
    obtain ⟨q, -, hlater, hrevoked, -⟩ := h.tracked hp huid
    rw [hlater.eq_of_revoked hrev] at hrevoked
    exact List.mem_filter.2 ⟨hrevoked, hrev⟩
  liveThroughout p hp huid hp' hlive := by
    obtain ⟨q, hvalid, hlater, -, hexpired⟩ := h.tracked hp huid
    have hlater' : Later q p := by
      obtain ⟨r, hr, hlater'⟩ := extends_of_reaches
        (h.loop.trans (h.second.trans (h.third.trans h.last))) q
        (mem_certificatesOf.1 (h.rows₁ ▸ hvalid)).1
      rwa [← Table.eq_of_key_eq hr hp' (hlater'.serialNr.trans hlater.serialNr)]
    obtain rfl := hlater'.eq_of_not_revoked hlive.1
    rcases h.listed_of_not_revoked h₀ hempty hreach hvalid hexpired hlive.1 with hq | ⟨-, hlt⟩
    · exact hq
    · exact absurd hlive.2 (not_le_of_gt hlt)

end PageRun

/-- The page, from a run of its program. -/
theorem pageShows_of_watches {s₀ : State} (h₀ : s₀.history = []) (hempty : s₀.publicCertificates = ∅)
    (hreach : (system P).Reaches (.initial s₀) c) {data : CertificatesData}
    (h : (system P).Watches i (index P uid).run c (.ok (.certificates data)) c') :
    ∃ vs rs es, PageShows P uid data vs rs es c c' := by
  obtain ⟨data', b, hfetch, hdone⟩ := of_watches_action_bind h
  obtain ⟨hdata, hend⟩ := of_watches_pure hdone
  obtain rfl := Reply.certificates.inj hdata
  obtain ⟨t₁, b₁, hread, h⟩ := of_watches_action_bind hfetch
  obtain ⟨c₁, hc₁, hb₁, rfl⟩ := of_watches_readCertificates hread
  obtain ⟨valid, b₂, hloop, h⟩ := of_watches_action_bind h
  obtain ⟨hb₂, vs, rfl, hvalid⟩ := of_watches_validLoop hloop
  obtain ⟨t₃, b₃, hread, h⟩ := of_watches_action_bind h
  obtain ⟨c₃, hc₃, hb₃, rfl⟩ := of_watches_readCertificates hread
  obtain ⟨t₄, b₄, hread, h⟩ := of_watches_action_bind h
  obtain ⟨c₄, hc₄, hb₄, rfl⟩ := of_watches_readCertificates hread
  obtain ⟨expired, b₅, hloop, h⟩ := of_watches_action_bind h
  obtain ⟨hb₅, es, rfl, hexpired⟩ := of_watches_expiredLoop hloop
  obtain ⟨rfl, hb⟩ := of_watches_pure h
  have hlast := hb₅.trans (hb.trans hend)
  have hrun : PageRun P uid _ _ _ vs es c c₁ b₂ c₃ c₄ c' :=
    ⟨hc₁, hb₁.trans hb₂, hc₃, hb₃.trans hc₄, hb₄.trans hlast, rfl, rfl, rfl,
      hvalid.head (now_le_of_reaches hb₁),
      (hexpired.head (now_le_of_reaches hb₄)).tail (now_le_of_reaches (hb.trans hend))⟩
  exact ⟨vs, _, es, hrun.pageShows h₀ hempty hreach⟩

/-- The requests that are answered with the page of the certificates. -/
inductive WebRequest.ShowsCertificates : WebRequest → Prop
  | certIndex : ShowsCertificates .certIndex
  | download {details : DownloadCertDetails} (h : details.isValid = false) :
      ShowsCertificates (.download details)
  | new {details : RequestNewCertDetails} (h : details.isValid = false) :
      ShowsCertificates (.new details)

theorem web_of_showsCertificates {machineName : String} {r : WebRequest} (hr : r.ShowsCertificates) :
    web P machineName uid r = index P uid := by
  cases hr with
  | certIndex => rfl
  | download h => simp [web, download, h]
  | new h => simp [web, new, h]

/-- Whatever the servers do from a moment before the request to one after its answer: the page lists one
certificate at most as valid, which was live at one moment, it leaves out no certificate of the user,
and none that it lists as revoked is in another list. -/
theorem page_of_reaches (P : Platform) {s₀ : State} (h₀ : s₀.history = [])
    (hempty : s₀.publicCertificates = ∅) {c c' : Configuration}
    (h : (system P).Reaches (.initial s₀) c) (h' : (system P).Reaches c c') {i : ℕ}
    {machineName uid : String} {r : WebRequest} (hr : r.ShowsCertificates)
    (hnew : (system P).Unbegun c i (.web machineName uid r)) {data : CertificatesData}
    (hpage : c'.procs i = some (.web machineName uid r, .done (.certificates data))) :
    ∃ vs rs es, PageShows P uid data vs rs es c c' := by
  have hrun := of_watches_answer (by simp) (System.runs_of_reaches h' hnew hpage)
  have hindex : action P (.web machineName uid r) = index P uid := web_of_showsCertificates hr
  rw [hindex] at hrun
  exact pageShows_of_watches h₀ hempty h hrun

section

open Deployment

/-- The page of the certificates, of a session of the user. -/
def certificatesPage : Request := .web "aslcert01" "a3" .certIndex

/-- The certificate is revoked between the first query of the page and the second. -/
def revokedMeanwhile : List (Act Request Choice ℕ) :=
  .arrive 9 certificatesPage :: (steps 9 3 ++ revokeIt ++ steps 9 3)

/-- The page lists one certificate, as valid. -/
def listsOneValid : Option (Request × Reply) → Option CertificatesData
  | some (req, .certificates data) =>
      if req = certificatesPage ∧ data.valid.length = 1 ∧ data.revoked = [] ∧ data.expired = [] then
        some data
      else none
  | _ => none

theorem of_listsOneValid {answer : Option (Request × Reply)} {data : CertificatesData}
    (h : listsOneValid answer = some data) : answer = some (certificatesPage, .certificates data) ∧
      data.valid.length = 1 ∧ data.revoked = [] ∧ data.expired = [] := by
  unfold listsOneValid at h
  split at h
  · split_ifs at h with hlists
    obtain ⟨rfl, hlists⟩ := hlists
    obtain rfl := Option.some.inj h
    exact ⟨rfl, hlists⟩
  · cases h

/-- The page lists the certificate as valid though it was revoked meanwhile. -/
theorem page_revokedMeanwhile : ∃ (c c' : Configuration) (data : CertificatesData)
    (vs rs es : List PublicCertificate), PageShows platform "a3" data vs rs es c c' ∧
      data.valid.length = 1 ∧ data.revoked = [] ∧ data.expired = [] ∧
      ∀ p ∈ c'.shared.publicCertificates.rows, p.isRevoked = true := by
  have hpage : ((system platform).run issueThenList (.initial (installed users))).any
      (fun c => (c.procs 9).isNone && ((system platform).run revokedMeanwhile c).any fun c' =>
        (listsOneValid (c'.answer 9)).isSome &&
          c'.shared.publicCertificates.rows.all fun p => p.isRevoked) = true := by decide +kernel
  obtain ⟨c, hc, hpage⟩ := (Option.any_eq_true _ _).1 hpage
  obtain ⟨hidle, hpage⟩ := Bool.and_eq_true_iff.1 hpage
  obtain ⟨c', hc', hpage⟩ := (Option.any_eq_true _ _).1 hpage
  obtain ⟨hlists, hrevoked⟩ := Bool.and_eq_true_iff.1 hpage
  obtain ⟨data, hdata⟩ := Option.isSome_iff_exists.1 hlists
  obtain ⟨hanswer, hlists⟩ := of_listsOneValid hdata
  obtain ⟨vs, rs, es, hshows⟩ := page_of_reaches platform rfl rfl (System.reaches_of_run hc)
    (System.reaches_of_run hc') .certIndex (Or.inl (Option.isNone_iff_eq_none.1 hidle))
    (Config.procs_of_answer hanswer)
  exact ⟨c, c', data, vs, rs, es, hshows, hlists.1, hlists.2.1, hlists.2.2,
    List.all_eq_true.1 hrevoked⟩

end

end IMoviesCA
