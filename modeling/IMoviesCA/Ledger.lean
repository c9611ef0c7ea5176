import IMoviesCA.Run

/-!
# The ledger of certificates

`GetMaxSerialNr` reads a snapshot and adds one to the largest number in it, and nothing locks the
table between that read and the commit.  `Ledger` is the invariant that makes this safe: the rows
carry the numbers `0, 1, …` in the order of their commits, every snapshot is an older state of the
table, and of two certificates of one user the older one is revoked or has expired.

A commit that succeeds inserts a free number, so its snapshot shows every row of the table
(`snapshot_complete`): nothing was issued in between, and the revocations of the transaction are
those of the table at its commit.
-/

namespace IMoviesCA

open IssueController CADBModifier

/-! ## Serial numbers in order -/

/-- The rows of the table carry the numbers below `n`, in order. -/
structure Numbered (t : Table PublicCertificate) (n : ℕ) : Prop where
  keys : t.keys = (List.range n).map UInt64.ofNat
  le : n ≤ 2 ^ 64

theorem toNat_ofNat_of_lt {k : ℕ} (h : k < 2 ^ 64) : (UInt64.ofNat k).toNat = k := by
  rw [UInt64.toNat_ofNat']
  exact Nat.mod_eq_of_lt h

theorem Numbered.mem_keys {t : Table PublicCertificate} {n : ℕ} (h : Numbered t n) {k : UInt64} :
    k ∈ t.keys ↔ k.toNat < n := by
  rw [h.keys, List.mem_map]
  constructor
  · rintro ⟨m, hm, rfl⟩
    have hlt : m < n := List.mem_range.1 hm
    rw [toNat_ofNat_of_lt (lt_of_lt_of_le hlt h.le)]
    exact hlt
  · intro hk
    exact ⟨k.toNat, List.mem_range.2 hk, UInt64.ofNat_toNat⟩

/-- The largest of the numbers below `n + 1`, as the loop of `Max` finds it. -/
theorem foldl_max_range {n : ℕ} (h : n < 2 ^ 64) :
    (((List.range n).map fun k => UInt64.ofNat (k + 1)).foldl
      (fun m n => if m < n then n else m) 0) = UInt64.ofNat n := by
  induction n with
  | zero => rfl
  | succ n ih =>
    have hlt : UInt64.ofNat n < UInt64.ofNat (n + 1) := by
      rw [UInt64.lt_iff_toNat_lt, toNat_ofNat_of_lt (by omega), toNat_ofNat_of_lt h]
      omega
    rw [List.range_succ, List.map_append, List.foldl_append, ih (by omega)]
    simp only [List.map_cons, List.map_nil, List.foldl_cons, List.foldl_nil]
    rw [if_pos hlt]

/-- The next serial number is the number of rows, in 64-bit arithmetic. -/
theorem getMaxSerialNr_of_numbered {t : Table PublicCertificate} {n : ℕ} (h : Numbered t n) :
    getMaxSerialNr t = ⟨UInt64.ofNat n⟩ := by
  have hkeys : t.rows.map PublicCertificate.serialNr = (List.range n).map UInt64.ofNat := h.keys
  unfold getMaxSerialNr
  dsimp only
  rw [hkeys]
  cases n with
  | zero => rfl
  | succ n =>
    have hlt : n < 2 ^ 64 := lt_of_lt_of_le (Nat.lt_succ_self n) h.le
    have hadd : UInt64.ofNat n + 1 = UInt64.ofNat (n + 1) := by
      apply UInt64.toNat_inj.1
      rw [UInt64.toNat_add, UInt64.toNat_ofNat', UInt64.toNat_ofNat']
      simp
    rw [List.range_succ_eq_map, List.map_cons, List.map_map]
    dsimp only
    by_cases hone : n = 0
    · subst hone
      rfl
    · rw [if_neg (by simpa using hone)]
      have hfun : UInt64.ofNat ∘ Nat.succ = fun k => UInt64.ofNat (k + 1) := rfl
      have hmax := foldl_max_range hlt
      rw [hfun, show UInt64.ofNat 0 = (0 : UInt64) from rfl, hmax, hadd]

/-! ## Rows that only change their flag -/

/-- `q` is the row `p` at a later time: it may have been revoked. -/
structure Later (p q : PublicCertificate) : Prop where
  serialNr : q.serialNr = p.serialNr
  uid : q.uid = p.uid
  certificate : q.certificate = p.certificate
  isRevoked : p.isRevoked = true → q.isRevoked = true

theorem Later.refl (p : PublicCertificate) : Later p p := ⟨rfl, rfl, rfl, id⟩

theorem Later.trans {p q r : PublicCertificate} (h : Later p q) (h' : Later q r) : Later p r :=
  ⟨h'.serialNr.trans h.serialNr, h'.uid.trans h.uid, h'.certificate.trans h.certificate,
    fun hp => h'.isRevoked (h.isRevoked hp)⟩

/-- A row that is not revoked is the row it was. -/
theorem Later.eq_of_not_revoked {p q : PublicCertificate} (h : Later p q)
    (hq : q.isRevoked = false) : q = p := by
  have hp : p.isRevoked = false := by
    cases hp : p.isRevoked with
    | false => rfl
    | true => rw [h.isRevoked hp] at hq; cases hq
  obtain ⟨hs, hu, hc, -⟩ := h
  cases p; cases q
  simp_all

/-- A row that was revoked is the row it was. -/
theorem Later.eq_of_revoked {p q : PublicCertificate} (h : Later p q) (hp : p.isRevoked = true) :
    q = p := by
  have hq := h.isRevoked hp
  obtain ⟨hs, hu, hc, -⟩ := h
  cases p; cases q
  simp_all

theorem patchedBy_revocation (k : UInt64) (p : PublicCertificate) :
    Table.patchedBy (revocation k) p = if p.serialNr = k then { p with isRevoked := true } else p :=
  rfl

/-- A write set revokes a row or leaves it as it is. -/
theorem patched_certificate (ws : List CertificateWrite) (p : PublicCertificate) :
    Table.patched ws p = if revocation p.serialNr ∈ ws then { p with isRevoked := true } else p := by
  induction ws generalizing p with
  | nil => rfl
  | cons w ws ih =>
    rw [Table.patched_cons, ih]
    rcases w with r | ⟨k, ⟨⟩⟩
    · have hne : revocation p.serialNr ≠ .insert r := by
        intro h
        cases h
      by_cases h : revocation p.serialNr ∈ ws <;> simp [Table.patchedBy, hne, h]
    · have hw : Write.update k CertificatePatch.isRevoked = revocation k := rfl
      rw [hw, patchedBy_revocation]
      by_cases hk : p.serialNr = k
      · subst hk
        simp [revocation]
      · by_cases h : revocation p.serialNr ∈ ws <;> simp_all [revocation]

theorem later_patched (ws : List CertificateWrite) (p : PublicCertificate) :
    Later p (Table.patched ws p) := by
  rw [patched_certificate]
  split_ifs
  · exact ⟨rfl, rfl, rfl, fun _ => rfl⟩
  · exact Later.refl p

/-- Every row of the older table is still there. -/
def Extends (t t' : Table PublicCertificate) : Prop := ∀ p ∈ t.rows, ∃ q ∈ t'.rows, Later p q

theorem Extends.refl (t : Table PublicCertificate) : Extends t t := fun p hp => ⟨p, hp, Later.refl p⟩

theorem extends_of_commit {t t' : Table PublicCertificate} {ws : List CertificateWrite}
    (h : t.commit ws = some t') : Extends t t' := fun p hp =>
  ⟨Table.patched ws p, (Table.mem_of_commit h).2 (Or.inl ⟨p, hp, rfl⟩), later_patched ws p⟩

theorem Extends.trans {t t' t'' : Table PublicCertificate} (h : Extends t t')
    (h' : Extends t' t'') : Extends t t'' := by
  intro p hp
  obtain ⟨q, hq, hpq⟩ := h p hp
  obtain ⟨r, hr, hqr⟩ := h' q hq
  exact ⟨r, hr, hpq.trans hqr⟩

/-! ## Write sets of the CA server -/

/-- The row that a transaction inserts. -/
def insertedRow : List CertificateWrite → Option PublicCertificate
  | [] => none
  | .insert row :: _ => some row
  | .update _ _ :: ws => insertedRow ws

/-- The write set consists of revocations. -/
def Revocations (ws : List CertificateWrite) : Prop := ∀ w ∈ ws, ∃ n, w = revocation n

theorem RevokesAll.revocations {uid : String} {t : Table PublicCertificate} {since : Time}
    {ws : List CertificateWrite} {time : Time} (h : RevokesAll uid t since ws time) :
    Revocations ws := by
  intro w hw
  obtain ⟨p, -, rfl, -⟩ := h.sound w hw
  exact ⟨p.serialNr, rfl⟩

theorem insertedRow_of_revocations {ws : List CertificateWrite} (h : Revocations ws)
    (ws' : List CertificateWrite) : insertedRow (ws ++ ws') = insertedRow ws' := by
  induction ws with
  | nil => rfl
  | cons w ws ih =>
    obtain ⟨n, rfl⟩ := h w List.mem_cons_self
    exact ih fun w' hw' => h w' (List.mem_cons_of_mem _ hw')

theorem insertedRow_revocations {ws : List CertificateWrite} (h : Revocations ws) :
    insertedRow ws = none := by
  simpa [insertedRow] using insertedRow_of_revocations h []

theorem insertedRow_append {ws : List CertificateWrite} (h : Revocations ws)
    (row : PublicCertificate) : insertedRow (ws ++ [.insert row]) = some row :=
  insertedRow_of_revocations h [.insert row]

theorem added_of_revocations {ws : List CertificateWrite} (h : Revocations ws)
    (ws' : List CertificateWrite) : Table.added (ws ++ ws') = Table.added ws' := by
  induction ws with
  | nil => rfl
  | cons w ws ih =>
    obtain ⟨n, rfl⟩ := h w List.mem_cons_self
    exact ih fun w' hw' => h w' (List.mem_cons_of_mem _ hw')

theorem added_revocations {ws : List CertificateWrite} (h : Revocations ws) :
    Table.added ws = [] := by
  simpa [Table.added] using added_of_revocations h []

theorem added_append {ws : List CertificateWrite} (h : Revocations ws) (row : PublicCertificate) :
    Table.added (ws ++ [.insert row]) = [row] :=
  added_of_revocations h [.insert row]

section

variable {P : Platform} {machineName : String} {r : CertRequest}

theorem Issuance.insertedRow_writes (I : Issuance P machineName r) : insertedRow I.writes = some I.row :=
  insertedRow_append I.revokesAll.revocations I.row

theorem Issuance.added_writes (I : Issuance P machineName r) : Table.added I.writes = [I.row] :=
  added_append I.revokesAll.revocations I.row

end

theorem keys_of_revocations {t t' : Table PublicCertificate} {ws : List CertificateWrite}
    (hws : Revocations ws) (h : t.commit ws = some t') : t'.keys = t.keys := by
  rw [Table.keys_of_commit h, Table.insertedKeys, added_revocations hws, List.map_nil,
    List.append_nil]

theorem keys_of_issue {t t' : Table PublicCertificate} {ws : List CertificateWrite}
    {row : PublicCertificate} (hws : Revocations ws)
    (h : t.commit (ws ++ [.insert row]) = some t') : t'.keys = t.keys ++ [row.serialNr] := by
  rw [Table.keys_of_commit h, Table.insertedKeys, added_append hws]
  rfl

/-- An issuance that is committed inserts a number that was free. -/
theorem not_mem_keys_of_issue {t t' : Table PublicCertificate} {ws : List CertificateWrite}
    {row : PublicCertificate} (hws : Revocations ws)
    (h : t.commit (ws ++ [.insert row]) = some t') : row.serialNr ∉ t.keys := by
  intro hmem
  have hins : row.serialNr ∈ Table.insertedKeys (ws ++ [.insert row]) := by
    rw [Table.insertedKeys, added_append hws]
    exact List.mem_cons_self
  rw [Table.commit_eq_none hmem hins] at h
  cases h

/-! ## The invariant -/

/-- The row that an event inserts into `public_certificates`. -/
def Event.issued : Event → Option PublicCertificate
  | .certificatesCommitted _ ws _ => insertedRow ws
  | _ => none

/-- The rows of the committed issuances, newest first. -/
def issued (history : List Event) : List PublicCertificate := history.filterMap Event.issued

theorem issued_cons_none {e : Event} (h : e.issued = none) (history : List Event) :
    issued (e :: history) = issued history := List.filterMap_cons_none h

theorem issued_cons_some {e : Event} {row : PublicCertificate} (h : e.issued = some row)
    (history : List Event) : issued (e :: history) = row :: issued history :=
  List.filterMap_cons_some h

/-- The certificate is neither revoked nor past its `NotAfter`. -/
def Live (now : Time) (p : PublicCertificate) : Prop :=
  p.isRevoked = false ∧ now ≤ p.parse.notAfter

instance (now : Time) (p : PublicCertificate) : Decidable (Live now p) := instDecidableAnd

/-- Of two certificates of one user, the older one is not live. -/
def Superseded (now : Time) (t : Table PublicCertificate) : Prop :=
  ∀ p ∈ t.rows, ∀ q ∈ t.rows, p.uid = q.uid → p.serialNr.toNat < q.serialNr.toNat → ¬ Live now p

/-- What holds of `public_certificates` and of the history in every state of a run. -/
structure Ledger (s : State) : Prop where
  numbered : Numbered s.publicCertificates (issued s.history).length
  /-- The rows are those that were issued, in the order of their commits. -/
  rows : List.Forall₂ Later (issued s.history).reverse s.publicCertificates.rows
  snapshot : ∀ {i t time}, .certificatesRead i t time ∈ s.history →
    (∃ n, n ≤ (issued s.history).length ∧ Numbered t n) ∧ Extends t s.publicCertificates
  superseded : Superseded s.now s.publicCertificates

/-- A user has at most one live certificate. -/
theorem Ledger.live_unique {s : State} (h : Ledger s) {p q : PublicCertificate}
    (hp : p ∈ s.publicCertificates.rows) (hq : q ∈ s.publicCertificates.rows) (hu : p.uid = q.uid)
    (hlivep : Live s.now p) (hliveq : Live s.now q) : p = q := by
  rcases Nat.lt_trichotomy p.serialNr.toNat q.serialNr.toNat with hlt | heq | hgt
  · exact absurd hlivep (h.superseded p hp q hq hu hlt)
  · exact Table.eq_of_key_eq hp hq (UInt64.toNat_inj.1 heq)
  · exact absurd hliveq (h.superseded q hq p hp hu.symm hgt)

theorem not_live_mono {now now' : Time} {p q : PublicCertificate} (hnow : now ≤ now')
    (hpq : Later p q) (h : ¬ Live now p) : ¬ Live now' q := by
  rintro ⟨hrev, hexp⟩
  obtain rfl := hpq.eq_of_not_revoked hrev
  exact h ⟨hrev, hnow.trans hexp⟩

theorem ledger_initial {s : State} (h₀ : s.history = []) (h : s.publicCertificates = ∅) :
    Ledger s := by
  refine ⟨?_, ?_, ?_, ?_⟩
  · rw [h₀, h]
    exact ⟨rfl, Nat.zero_le _⟩
  · rw [h₀, h]
    exact .nil
  · intro i t time he
    rw [h₀] at he
    cases he
  · intro p hp
    rw [h] at hp
    cases hp

theorem ledger_tick {s : State} (d : ℕ) (h : Ledger s) : Ledger (tick d s) :=
  ⟨h.numbered, h.rows, h.snapshot, fun p hp q hq hu hlt =>
    not_live_mono (Nat.le_add_right _ _) (Later.refl p) (h.superseded p hp q hq hu hlt)⟩

/-- An event that neither reads nor writes `public_certificates`. -/
theorem ledger_other {s s' : State} {e : Event} (h : Ledger s) (he : e.issued = none)
    (hread : ∀ i t time, e ≠ .certificatesRead i t time) (hhist : s'.history = e :: s.history)
    (hnow : s'.now = s.now) (htable : s'.publicCertificates = s.publicCertificates) :
    Ledger s' := by
  have hissued : issued s'.history = issued s.history := by
    rw [hhist, issued_cons_none he]
  refine ⟨?_, ?_, ?_, ?_⟩
  · rw [hissued, htable]
    exact h.numbered
  · rw [hissued, htable]
    exact h.rows
  · intro i t time hmem
    rw [hhist] at hmem
    rcases List.mem_cons.1 hmem with heq | hmem
    · exact absurd heq.symm (hread i t time)
    · rw [hissued, htable]
      exact h.snapshot hmem
  · rw [hnow, htable]
    exact h.superseded

theorem ledger_read {s : State} (i : ℕ) (h : Ledger s) :
    Ledger (s.record (.certificatesRead i s.publicCertificates s.now)) := by
  refine ⟨h.numbered, h.rows, ?_, h.superseded⟩
  intro j t time hmem
  rcases List.mem_cons.1 hmem with heq | hmem
  · obtain ⟨rfl, rfl, rfl⟩ := Event.certificatesRead.inj heq
    exact ⟨⟨_, le_refl _, h.numbered⟩, Extends.refl _⟩
  · exact h.snapshot hmem

/-- A write set that inserts nothing keeps the ledger. -/
theorem ledger_revoke {s : State} {t : Table PublicCertificate} {ws : List CertificateWrite} {i : ℕ}
    (h : Ledger s) (hws : Revocations ws) (hc : s.publicCertificates.commit ws = some t) :
    Ledger ({ s with publicCertificates := t }.record (.certificatesCommitted i ws s.now)) := by
  have hevent : (Event.certificatesCommitted i ws s.now).issued = none :=
    insertedRow_revocations hws
  have hissued : issued (.certificatesCommitted i ws s.now :: s.history) = issued s.history :=
    issued_cons_none hevent _
  have hrows : t.rows = s.publicCertificates.rows.map (Table.patched ws) := by
    rw [Table.rows_of_commit hc, added_revocations hws, List.append_nil]
  refine ⟨?_, ?_, ?_, ?_⟩
  · change Numbered t (issued (_ :: _)).length
    rw [hissued]
    exact ⟨(keys_of_revocations hws hc).trans h.numbered.keys, h.numbered.le⟩
  · change List.Forall₂ Later (issued (_ :: _)).reverse t.rows
    rw [hissued, hrows, List.forall₂_map_right_iff]
    exact h.rows.imp fun _ _ hpq => hpq.trans (later_patched ws _)
  · intro j t' time hmem
    rcases List.mem_cons.1 hmem with heq | hmem
    · cases heq
    · change (∃ n, n ≤ (issued (_ :: _)).length ∧ _) ∧ _
      rw [hissued]
      exact ⟨(h.snapshot hmem).1, (h.snapshot hmem).2.trans (extends_of_commit hc)⟩
  · change Superseded s.now t
    intro p' hp' q' hq' hu hlt
    rw [hrows] at hp' hq'
    obtain ⟨p, hp, rfl⟩ := List.mem_map.1 hp'
    obtain ⟨q, hq, rfl⟩ := List.mem_map.1 hq'
    have hpl := later_patched ws p
    have hql := later_patched ws q
    rw [hpl.uid, hql.uid] at hu
    rw [hpl.serialNr, hql.serialNr] at hlt
    exact not_live_mono (le_refl _) hpl (h.superseded p hp q hq hu hlt)

/-- The snapshot of an issuance that is committed shows every row of the table: nothing was issued
in between. -/
theorem snapshot_complete {s : State} {S t : Table PublicCertificate} {ws : List CertificateWrite}
    {row : PublicCertificate} {i : ℕ} {since : Time} (h : Ledger s)
    (hread : .certificatesRead i S since ∈ s.history)
    (hrow : row.serialNr = (getMaxSerialNr S).serialNr) (hws : Revocations ws)
    (hc : s.publicCertificates.commit (ws ++ [Write.insert row]) = some t) :
    Numbered S (issued s.history).length ∧ (issued s.history).length < 2 ^ 64 ∧
      row.serialNr = UInt64.ofNat (issued s.history).length := by
  obtain ⟨⟨n, hn, hS⟩, -⟩ := h.snapshot hread
  rw [getMaxSerialNr_of_numbered hS] at hrow
  have hfree : ¬ row.serialNr.toNat < (issued s.history).length := fun hlt =>
    not_mem_keys_of_issue hws hc (h.numbered.mem_keys.2 hlt)
  rw [hrow] at hfree
  rcases Nat.lt_or_ge n (2 ^ 64) with hlt | hge
  · dsimp only at hfree
    rw [toNat_ofNat_of_lt hlt] at hfree
    obtain rfl : n = (issued s.history).length := by omega
    exact ⟨hS, hlt, hrow⟩
  · -- the number wrapped to 0, which is taken
    have hn64 : n = 2 ^ 64 := le_antisymm hS.le hge
    subst hn64
    exact absurd (lt_of_lt_of_le (by decide : (UInt64.ofNat (2 ^ 64)).toNat < 2 ^ 64) hn) hfree

/-- Every row of the table has an older version in a complete snapshot. -/
theorem mem_snapshot {s : State} {S : Table PublicCertificate} {i : ℕ} (h : Ledger s)
    (hread : .certificatesRead i S since ∈ s.history) (hS : Numbered S (issued s.history).length)
    {q : PublicCertificate} (hq : q ∈ s.publicCertificates.rows) : ∃ p ∈ S.rows, Later p q := by
  have hkey : q.serialNr ∈ S.keys :=
    hS.mem_keys.2 (h.numbered.mem_keys.1 (Table.key_mem_keys hq))
  obtain ⟨p, hp, hpq⟩ := Table.mem_keys.1 hkey
  obtain ⟨q', hq', hlater⟩ := (h.snapshot hread).2 p hp
  have hsame : q' = q := Table.eq_of_key_eq hq' hq (hlater.serialNr.trans hpq)
  exact ⟨p, hp, hsame ▸ hlater⟩

/-- After a committed issuance no older certificate of the user is live. -/
theorem not_live_of_issue {s : State} {S : Table PublicCertificate}
    {ws : List CertificateWrite} {row : PublicCertificate} {i : ℕ} (h : Ledger s)
    (hread : .certificatesRead i S since ∈ s.history) (hS : Numbered S (issued s.history).length)
    (hws : RevokesAll row.uid S since ws s.now)
    {p : PublicCertificate} (hp : p ∈ s.publicCertificates.rows) (hu : p.uid = row.uid) :
    ¬ Live s.now (Table.patched (ws ++ [Write.insert row]) p) := by
  rintro ⟨hrev, hexp⟩
  have hlater := later_patched (ws ++ [Write.insert row]) p
  have hp' := hlater.eq_of_not_revoked hrev
  rw [hp'] at hrev hexp
  obtain ⟨p₀, hp₀, hlater₀⟩ := mem_snapshot h hread hS hp
  obtain rfl := hlater₀.eq_of_not_revoked hrev
  have hmem : p ∈ unrevokedCertificates row.uid S := by
    simp [unrevokedCertificates, hp₀, hu, hrev]
  rcases hws.complete p hmem with hin | hlt
  · rw [patched_certificate, if_pos (List.mem_append_left _ hin)] at hp'
    rw [← hp'] at hrev
    cases hrev
  · exact absurd hexp (Nat.not_le.2 hlt)

/-- The rows after an issuance: the new one has the largest number, and the older ones of its user
are not live. -/
theorem superseded_issue {s : State} {S t : Table PublicCertificate} {ws : List CertificateWrite}
    {row : PublicCertificate} {i : ℕ} {since : Time} (h : Ledger s)
    (hread : .certificatesRead i S since ∈ s.history)
    (hS : Numbered S (issued s.history).length)
    (hserial : row.serialNr.toNat = (issued s.history).length)
    (hws : RevokesAll row.uid S since ws s.now)
    (hrows : t.rows =
      s.publicCertificates.rows.map (Table.patched (ws ++ [Write.insert row])) ++ [row]) :
    Superseded s.now t := by
  have hold : ∀ p ∈ s.publicCertificates.rows, p.serialNr.toNat < row.serialNr.toNat := by
    intro p hp
    rw [hserial]
    exact h.numbered.mem_keys.1 (Table.key_mem_keys hp)
  intro p' hp' q' hq' hu hlt
  rw [hrows] at hp' hq'
  rcases List.mem_append.1 hp' with hp' | hp'
  · obtain ⟨p, hp, rfl⟩ := List.mem_map.1 hp'
    have hpl := later_patched (ws ++ [Write.insert row]) p
    rcases List.mem_append.1 hq' with hq' | hq'
    · obtain ⟨q, hq, rfl⟩ := List.mem_map.1 hq'
      have hql := later_patched (ws ++ [Write.insert row]) q
      rw [hpl.uid, hql.uid] at hu
      rw [hpl.serialNr, hql.serialNr] at hlt
      exact not_live_mono (le_refl _) hpl (h.superseded p hp q hq hu hlt)
    · obtain rfl := List.mem_singleton.1 hq'
      exact not_live_of_issue h hread hS hws hp (hpl.uid.symm.trans hu)
  · exfalso
    obtain rfl := List.mem_singleton.1 hp'
    rcases List.mem_append.1 hq' with hq' | hq'
    · obtain ⟨q, hq, rfl⟩ := List.mem_map.1 hq'
      rw [(later_patched _ q).serialNr] at hlt
      exact absurd (hold q hq) (Nat.lt_asymm hlt)
    · rw [List.mem_singleton.1 hq'] at hlt
      exact absurd hlt (Nat.lt_irrefl _)

theorem ledger_issue {s : State} {S t : Table PublicCertificate} {ws : List CertificateWrite}
    {row : PublicCertificate} {i : ℕ} {since : Time} (h : Ledger s)
    (hread : .certificatesRead i S since ∈ s.history)
    (hrow : row.serialNr = (getMaxSerialNr S).serialNr) (hws : RevokesAll row.uid S since ws s.now)
    (hc : s.publicCertificates.commit (ws ++ [Write.insert row]) = some t) :
    Ledger ({ s with publicCertificates := t }.record
      (.certificatesCommitted i (ws ++ [Write.insert row]) s.now)) := by
  obtain ⟨hS, hlt64, hserial⟩ := snapshot_complete h hread hrow hws.revocations hc
  have hevent : (Event.certificatesCommitted i (ws ++ [Write.insert row]) s.now).issued = some row :=
    insertedRow_append hws.revocations row
  have hissued : issued (.certificatesCommitted i (ws ++ [Write.insert row]) s.now :: s.history) =
      row :: issued s.history := issued_cons_some hevent _
  have hrows : t.rows =
      s.publicCertificates.rows.map (Table.patched (ws ++ [Write.insert row])) ++ [row] := by
    rw [Table.rows_of_commit hc, added_append hws.revocations]
  refine ⟨?_, ?_, ?_, ?_⟩
  · change Numbered t (issued (_ :: _)).length
    rw [hissued, List.length_cons]
    refine ⟨?_, hlt64⟩
    rw [keys_of_issue hws.revocations hc, h.numbered.keys, List.range_succ, List.map_append,
      hserial]
    rfl
  · change List.Forall₂ Later (issued (_ :: _)).reverse t.rows
    rw [hissued, hrows, List.reverse_cons]
    refine List.rel_append ?_ (.cons (Later.refl row) .nil)
    rw [List.forall₂_map_right_iff]
    exact h.rows.imp fun _ _ hpq => hpq.trans (later_patched _ _)
  · intro j t' time hmem
    rcases List.mem_cons.1 hmem with heq | hmem
    · cases heq
    · change (∃ n, n ≤ (issued (_ :: _)).length ∧ _) ∧ _
      rw [hissued, List.length_cons]
      obtain ⟨⟨n, hn, hnum⟩, hext⟩ := h.snapshot hmem
      exact ⟨⟨n, hn.trans (Nat.le_succ _), hnum⟩, hext.trans (extends_of_commit hc)⟩
  · have hlength : row.serialNr.toNat = (issued s.history).length := by
      rw [hserial, toNat_ofNat_of_lt hlt64]
    change Superseded s.now t
    exact superseded_issue h hread hS hlength hws hrows

/-! ## Every run -/

variable {P : Platform} {s₀ : State} {c c' : Configuration}

/-- The data of an issuance, with the events that came before its commit. -/
structure IssuedBy (P : Platform) (i : ℕ) (req : Request) (history : List Event)
    (ws : List CertificateWrite) (time : Time) where
  machineName : String
  r : CertRequest
  calls : Calls req machineName (.issue r)
  I : Issuance P machineName r
  writes : ws = I.writes
  time_eq : time = I.time
  certificatesRead : .certificatesRead i I.snapshot I.since ∈ history
  keyGenerated : .keyGenerated i I.key ∈ history
  userRead : .userRead i r.uid (some I.user) ∈ history

/-- The data of a revocation, with the events that came before its commit. -/
structure RevokedBy (i : ℕ) (req : Request) (history : List Event) (ws : List CertificateWrite)
    (time : Time) where
  machineName : String
  r : RevokeRequest
  calls : Calls req machineName (.revoke r)
  user : User
  snapshot : Table PublicCertificate
  since : Time
  id_eq : user.id = r.uid
  revokesAll : RevokesAll r.uid snapshot since ws time
  certificatesRead : .certificatesRead i snapshot since ∈ history

theorem RevokedBy.insertedRow {i : ℕ} {req : Request} {history : List Event}
    {ws : List CertificateWrite} {time : Time} (R : RevokedBy i req history ws time) :
    IMoviesCA.insertedRow ws = none :=
  insertedRow_revocations R.revokesAll.revocations

theorem RevokedBy.added {i : ℕ} {req : Request} {history : List Event}
    {ws : List CertificateWrite} {time : Time} (R : RevokedBy i req history ws time) :
    Table.added ws = [] :=
  added_revocations R.revokesAll.revocations

theorem commit_of_mem_trace {i : ℕ} {req : Request} {evs : List Event}
    (h : Trace P i req evs) {ws : List CertificateWrite} {t : Time}
    (he : .certificatesCommitted i ws t ∈ evs) {history : List Event}
    (hmem : ∀ e ∈ evs, e ≠ .certificatesCommitted i ws t → e ∈ history) :
    Nonempty (IssuedBy P i req history ws t) ∨ Nonempty (RevokedBy i req history ws t) := by
  rcases mem_trace h he with ⟨machineName, r, evs', hcall, htrace, hsub, he'⟩ | hweb
  · obtain ⟨-, ⟨r', I, rfl, hws, ht, hI⟩ | ⟨r', user, S, since, rfl, hid, hws, rfl⟩⟩ :=
      certificatesCommitted_cases htrace he'
    · refine Or.inl ⟨⟨machineName, r', hcall, I, hws, ht, ?_, ?_, ?_⟩⟩ <;>
        refine hmem _ (hsub (hI (by simp [Issuance.committed]))) (by simp)
    · refine Or.inr ⟨⟨machineName, r', hcall, user, S, since, hid, hws, ?_⟩⟩
      exact hmem _ (hsub (by simp [revocationEvents])) (by simp)
  · cases hweb

/-- A commit to `public_certificates` is the end of an issuance or of a revocation. -/
theorem commit_of_move {req : Request} {i : ℕ} {ws : List CertificateWrite} {t : Time}
    (h : Move P c c' req (.certificatesCommitted i ws t)) :
    Nonempty (IssuedBy P i req c.shared.history ws t) ∨
      Nonempty (RevokedBy i req c.shared.history ws t) := by
  apply commit_of_mem_trace h.trace List.mem_cons_self
  intro e he hne
  rcases List.mem_cons.1 he with heq | he
  · exact absurd heq hne
  · exact State.own_subset he

theorem ledger_move {req : Request} {e : Event} (hm : Move P c c' req e) (h : Ledger c.shared) :
    Ledger c'.shared := by
  have hocc := hm.occurs
  generalize hs : c.shared = s at hocc h
  generalize hs' : c'.shared = s' at hocc
  cases hocc with
  | certificatesRead => exact ledger_read _ h
  | @certificatesCommitted i ws _ t hc =>
    subst hs
    rcases commit_of_move hm with hiss | hrev
    · obtain ⟨⟨m, r, hcall, I, rfl, htime, hread, -, -⟩⟩ := hiss
      have hall := I.revokesAll
      rw [← htime] at hall
      exact ledger_issue h hread rfl hall hc
    · obtain ⟨R⟩ := hrev
      exact ledger_revoke h R.revokesAll.revocations hc
  | _ => exact ledger_other h rfl (by simp) rfl rfl rfl

/-- From an empty table the ledger holds in every reachable state. -/
theorem ledger_of_reaches (h₀ : s₀.history = []) (hempty : s₀.publicCertificates = ∅)
    (h : (system P).Reaches (.initial s₀) c) : Ledger c.shared :=
  invariant_of_moves h₀ (ledger_initial h₀ hempty) (fun d _ => ledger_tick d)
    (fun _ hm => ledger_move hm) h

/-- The table of a later state. -/
theorem Evolves.extends {evs : List Event} {s s' : State} (h : Evolves evs s s') :
    Extends s.publicCertificates s'.publicCertificates := by
  induction h with
  | refl => exact Extends.refl _
  | tick d _ ih => exact ih
  | event _ he ih =>
    cases he with
    | certificatesCommitted hc => exact ih.trans (extends_of_commit hc)
    | _ => exact ih

theorem extends_of_reaches (h : (system P).Reaches c c') :
    Extends c.shared.publicCertificates c'.shared.publicCertificates := by
  obtain ⟨evs, hevs⟩ := evolves_of_reaches h
  exact hevs.extends

/-! ## The requests behind the rows -/

/-- The issuance behind an inserted certificate. -/
theorem issuedBy_of_issued {e : Event} {req : Request} {evs history : List Event}
    (h : Trace P e.pid req evs) (he : e ∈ evs) (hsub : evs ⊆ history) {row : PublicCertificate}
    (hrow : e.issued = some row) : ∃ ws time, ∃ B : IssuedBy P e.pid req history ws time,
      e = .certificatesCommitted e.pid B.I.writes B.I.time ∧ row = B.I.row := by
  cases e with
  | certificatesCommitted i ws time =>
    have hinserted : insertedRow ws = some row := hrow
    rcases commit_of_mem_trace h he (fun _ he' _ => hsub he') with hiss | hrev
    · obtain ⟨B⟩ := hiss
      have hwrites : insertedRow ws = some B.I.row :=
        (congrArg insertedRow B.writes).trans B.I.insertedRow_writes
      exact ⟨ws, time, B, congrArg₂ (Event.certificatesCommitted i) B.writes B.time_eq,
        Option.some.inj (hinserted.symm.trans hwrites)⟩
    · obtain ⟨R⟩ := hrev
      rw [R.insertedRow] at hinserted
      cases hinserted
  | _ => cases hrow

/-- The request behind an inserted certificate. -/
theorem issuance_of_issued (h₀ : s₀.history = []) (h : (system P).Reaches (.initial s₀) c)
    {e : Event} (he : e ∈ c.shared.history) {row : PublicCertificate} (hrow : e.issued = some row) :
    ∃ (machineName : String) (r : CertRequest) (I : Issuance P machineName r), row = I.row ∧
      .certificatesCommitted e.pid I.writes I.time ∈ c.shared.own e.pid ∧
      .keyGenerated e.pid I.key ∈ c.shared.history := by
  obtain ⟨req, -, hown, htrace⟩ := trace_of_mem_history h₀ h he
  obtain ⟨ws, time, B, heq, rfl⟩ := issuedBy_of_issued htrace hown State.own_subset hrow
  exact ⟨B.machineName, B.r, B.I, rfl, by rwa [← heq], B.keyGenerated⟩

theorem exists_of_forall₂_left {l l' : List PublicCertificate} (h : List.Forall₂ Later l l')
    {p : PublicCertificate} (hp : p ∈ l) : ∃ q ∈ l', Later p q := by
  induction h with
  | nil => cases hp
  | cons hpq _ ih =>
    rcases List.mem_cons.1 hp with rfl | hp
    · exact ⟨_, List.mem_cons_self, hpq⟩
    · obtain ⟨q, hq, hlater⟩ := ih hp
      exact ⟨q, List.mem_cons_of_mem _ hq, hlater⟩

theorem exists_of_forall₂_right {l l' : List PublicCertificate} (h : List.Forall₂ Later l l')
    {q : PublicCertificate} (hq : q ∈ l') : ∃ p ∈ l, Later p q := by
  induction h with
  | nil => cases hq
  | cons hpq _ ih =>
    rcases List.mem_cons.1 hq with rfl | hq
    · exact ⟨_, List.mem_cons_self, hpq⟩
    · obtain ⟨p, hp, hlater⟩ := ih hq
      exact ⟨p, List.mem_cons_of_mem _ hp, hlater⟩

/-- A row is that of an issuance, and may have been revoked since. -/
theorem issuance_of_row (h₀ : s₀.history = []) (hempty : s₀.publicCertificates = ∅)
    (h : (system P).Reaches (.initial s₀) c) {p : PublicCertificate}
    (hp : p ∈ c.shared.publicCertificates.rows) :
    ∃ (machineName : String) (r : CertRequest) (I : Issuance P machineName r), Later I.row p := by
  obtain ⟨row, hrow, hlater⟩ := exists_of_forall₂_right (ledger_of_reaches h₀ hempty h).rows hp
  obtain ⟨e, he, hissued⟩ := List.mem_filterMap.1 (List.mem_reverse.1 hrow)
  obtain ⟨m, r, I, rfl, -, -⟩ := issuance_of_issued h₀ h he hissued
  exact ⟨m, r, I, hlater⟩

end IMoviesCA
