import IMoviesCA.AllOrNothing

/-!
# The stored key and the live certificate

`IssueCertificate` writes the certificate and the archive in two transactions, and nothing orders
the second ones like the first.  The stored archive is that of the last second transaction of the
user, the live certificate that of the last first one: they belong together exactly when one request
was last in both (`storedKey_of_reaches`).
-/

namespace IMoviesCA

open CADBModifier IssueController

variable {P : Platform} {s₀ : State} {c c' : Configuration} {uid : String}

/-! ## The last transactions of a user -/

/-- The row of `private_certificates` that an event writes. -/
def Event.stored : Event → Option PrivateKey
  | .privateKeysCommitted _ [.insert k] => some k
  | .privateKeysCommitted _ [.update uid (.keyPkcs12 archive)] => some ⟨uid, archive⟩
  | _ => none

/-- The archive of the user that an event has stored, and its process. -/
def Event.storedFor (uid : String) (e : Event) : Option (ℕ × PrivateKey) :=
  (e.stored.filter fun k => k.uid = uid).map fun k => (e.pid, k)

/-- The request that stored an archive of the user last, and the row that it wrote. -/
def lastStored (uid : String) (history : List Event) : Option (ℕ × PrivateKey) :=
  history.findSome? (Event.storedFor uid)

/-- The row of the user that an event has inserted, and its process. -/
def Event.issuedTo (uid : String) (e : Event) : Option (ℕ × PublicCertificate) :=
  (e.issued.filter fun row => row.uid = uid).map fun row => (e.pid, row)

/-- The request that issued a certificate to the user last, and the row that it inserted. -/
def lastIssued (uid : String) (history : List Event) : Option (ℕ × PublicCertificate) :=
  history.findSome? (Event.issuedTo uid)

/-- The events after that insertion. -/
def sinceIssued (uid : String) (history : List Event) : List Event :=
  history.takeWhile fun e => (e.issuedTo uid).isNone

theorem storedFor_eq_some {e : Event} {i : ℕ} {k : PrivateKey} :
    e.storedFor uid = some (i, k) ↔ e.stored = some k ∧ k.uid = uid ∧ e.pid = i := by
  simp only [Event.storedFor, Option.map_eq_some_iff, Option.filter_eq_some_iff, Prod.mk.injEq,
    decide_eq_true_eq]
  constructor
  · rintro ⟨k, ⟨hk, hu⟩, hi, rfl⟩
    exact ⟨hk, hu, hi⟩
  · rintro ⟨hk, hu, hi⟩
    exact ⟨k, ⟨hk, hu⟩, hi, rfl⟩

theorem issuedTo_eq_some {e : Event} {i : ℕ} {row : PublicCertificate} :
    e.issuedTo uid = some (i, row) ↔ e.issued = some row ∧ row.uid = uid ∧ e.pid = i := by
  simp only [Event.issuedTo, Option.map_eq_some_iff, Option.filter_eq_some_iff, Prod.mk.injEq,
    decide_eq_true_eq]
  constructor
  · rintro ⟨row, ⟨hrow, hu⟩, hi, rfl⟩
    exact ⟨hrow, hu, hi⟩
  · rintro ⟨hrow, hu, hi⟩
    exact ⟨row, ⟨hrow, hu⟩, hi, rfl⟩

theorem issuedTo_eq_none {e : Event} : e.issuedTo uid = none ↔
    ∀ row, e.issued = some row → row.uid ≠ uid := by
  simp [Event.issuedTo, Option.filter_eq_none_iff]

theorem mem_of_lastStored {history : List Event} {i : ℕ} {k : PrivateKey}
    (h : lastStored uid history = some (i, k)) :
    ∃ e ∈ history, e.stored = some k ∧ k.uid = uid ∧ e.pid = i := by
  obtain ⟨e, he, hk⟩ := List.exists_of_findSome?_eq_some h
  exact ⟨e, he, storedFor_eq_some.1 hk⟩

theorem exists_lastStored {history : List Event} {e : Event} (he : e ∈ history) {k : PrivateKey}
    (hk : e.stored = some k) : ∃ i k', lastStored k.uid history = some (i, k') := by
  have hsome : (lastStored k.uid history).isSome = true := by
    refine List.findSome?_isSome_iff.2 ⟨e, he, ?_⟩
    rw [storedFor_eq_some.2 ⟨hk, rfl, rfl⟩]
    rfl
  obtain ⟨⟨i, k'⟩, h⟩ := Option.isSome_iff_exists.1 hsome
  exact ⟨i, k', h⟩

theorem exists_lastIssued {history : List Event} {e : Event} (he : e ∈ history)
    {row : PublicCertificate} (hrow : e.issued = some row) :
    ∃ j row', lastIssued row.uid history = some (j, row') := by
  have hsome : (lastIssued row.uid history).isSome = true := by
    refine List.findSome?_isSome_iff.2 ⟨e, he, ?_⟩
    rw [issuedTo_eq_some.2 ⟨hrow, rfl, rfl⟩]
    rfl
  obtain ⟨⟨j, row'⟩, h⟩ := Option.isSome_iff_exists.1 hsome
  exact ⟨j, row', h⟩

/-- The history around the last issuance. -/
theorem history_of_lastIssued {history : List Event} {j : ℕ} {row : PublicCertificate}
    (h : lastIssued uid history = some (j, row)) : ∃ e earlier,
      history = sinceIssued uid history ++ e :: earlier ∧ e.issued = some row ∧ row.uid = uid ∧
        e.pid = j ∧ ∀ e' ∈ sinceIssued uid history, ∀ row', e'.issued = some row' → row'.uid ≠ uid := by
  obtain ⟨later, e, earlier, rfl, he, hlater⟩ := List.findSome?_eq_some_iff.1 h
  have hsince : sinceIssued uid (later ++ e :: earlier) = later := by
    rw [sinceIssued, List.takeWhile_append_of_pos (by simpa using hlater),
      List.takeWhile_cons_of_neg (by simp [he]), List.append_nil]
  obtain ⟨hrow, hu, hj⟩ := issuedTo_eq_some.1 he
  rw [hsince]
  exact ⟨e, earlier, rfl, hrow, hu, hj, fun e' he' => issuedTo_eq_none.1 (hlater e' he')⟩

/-! ## The stored archive -/

theorem stored_keyWrite {machineName : String} {r : CertRequest} (I : Issuance P machineName r)
    (i : ℕ) (stored : Bool) : (Event.privateKeysCommitted i [I.keyWrite stored]).stored =
      some ⟨I.user.id, I.archive⟩ := by
  cases stored <;> rfl

/-- The row of a user is the one that was written last. -/
def StoresLast (s : State) : Prop :=
  ∀ uid i k, lastStored uid s.history = some (i, k) → s.privateCertificates.find? uid = some k

/-- A commit to `private_certificates` is that of an issuance. -/
theorem keyWrite_of_move {req : Request} {i : ℕ} {ws : List PrivateKeyWrite}
    (hm : Move P c c' req (.privateKeysCommitted i ws)) :
    ∃ (machineName : String) (r : CertRequest) (I : Issuance P machineName r) (stored : Bool),
      Calls req machineName (.issue r) ∧ ws = [I.keyWrite stored] := by
  rcases mem_trace hm.trace List.mem_cons_self with ⟨m, r, evs, hcall, htrace, -, he⟩ | hweb
  · obtain ⟨-, r', I, bytes, stored, rfl, -, hws, -⟩ := privateKeysCommitted_cases htrace he
    exact ⟨m, r', I, stored, hcall, hws⟩
  · cases hweb

theorem storesLast_move {req : Request} {e : Event} (hm : Move P c c' req e)
    (h : StoresLast c.shared) : StoresLast c'.shared := by
  intro uid i k hlast
  rw [hm.occurs.history, lastStored, List.findSome?_cons] at hlast
  have hocc := hm.occurs
  generalize hs : c.shared = s at hocc h hlast
  generalize c'.shared = s' at hocc
  cases hocc with
  | @privateKeysCommitted j ws _ t hc =>
    subst hs
    obtain ⟨m, r, I, stored, -, rfl⟩ := keyWrite_of_move hm
    by_cases hu : I.user.id = uid
    · have hsome : (Event.privateKeysCommitted j [I.keyWrite stored]).storedFor uid =
          some (j, ⟨I.user.id, I.archive⟩) :=
        storedFor_eq_some.2 ⟨stored_keyWrite I j stored, hu, rfl⟩
      rw [hsome] at hlast
      obtain ⟨-, rfl⟩ := Prod.mk.inj (Option.some.inj hlast)
      rw [← hu]
      exact find?_of_keyWrite hc
    · have hnone : (Event.privateKeysCommitted j [I.keyWrite stored]).storedFor uid = none := by
        rw [Event.storedFor, stored_keyWrite, Option.filter_some, if_neg (by simpa using hu)]
        rfl
      rw [hnone] at hlast
      have huntouched : Table.Untouched [I.keyWrite stored] uid := by
        intro w hw
        obtain rfl := List.mem_singleton.1 hw
        cases stored
        · exact hu
        · exact hu
      exact (Table.find?_of_commit hc huntouched).trans (h uid i k hlast)
  | _ => exact h uid i k hlast

theorem storesLast_of_reaches (h₀ : s₀.history = []) (h : (system P).Reaches (.initial s₀) c) :
    StoresLast c.shared := by
  refine invariant_of_moves h₀ ?_ (fun d s hs => hs) (fun _ hm => storesLast_move hm) h
  intro uid i k hlast
  rw [h₀] at hlast
  cases hlast

theorem find?_of_privateKeyRead {i : ℕ} {row : Option PrivateKey} {s s' : State}
    (h : Occurs (.privateKeyRead i uid row) s s') : s.privateCertificates.find? uid = row := by
  cases h
  rfl

/-- A `DownloadPrivateKey` that runs by itself answers with the stored archive. -/
theorem stored_of_download {n : ℕ} {machineName : String} {r : DownloadPrivateKeyRequest}
    {s : State} (hs : s.own n = []) {sched : ℕ → ℕ × Choice} {archive : Pkcs12Archive}
    (h : (machine.alone n (answer (action P (.api machineName (.downloadPrivateKey r)))) sched s).1 =
      .ok archive) :
    ∃ k, s.privateCertificates.find? r.uid = some k ∧ k.keyPkcs12 = archive := by
  obtain ⟨evs, hevs, -, hanswer, -⟩ :=
    trace_of_alone P (.api machineName (.downloadPrivateKey r)) hs sched
  obtain ⟨user, key, -, hkey, rfl⟩ := hanswer archive h
  obtain ⟨s₁, s₂, h₁, hocc, -⟩ := hevs.last
  have hkeep : s₁.privateCertificates = s.privateCertificates :=
    h₁.privateCertificates (by intro j ws hmem; simp at hmem)
  refine ⟨key, ?_, hkey⟩
  rw [← hkeep]
  exact find?_of_privateKeyRead hocc

/-! ## Keys of different requests -/

/-- Every key pair is generated once. -/
structure KeysDistinct (s : State) : Prop where
  below : ∀ i k, .keyGenerated i k ∈ s.history → k.material < s.nextKey
  process : ∀ i j k k', .keyGenerated i k ∈ s.history → .keyGenerated j k' ∈ s.history →
    k.material = k'.material → i = j

theorem keysDistinct_occurs {e : Event} {s s' : State} (he : Occurs e s s') (h : KeysDistinct s) :
    KeysDistinct s' := by
  cases he with
  | @keyGenerated i alg keySize _ =>
    refine ⟨fun j k hk => ?_, fun j j' k k' hk hk' heq => ?_⟩
    · rcases List.mem_cons.1 hk with hk | hk
      · obtain ⟨rfl, rfl⟩ := Event.keyGenerated.inj hk
        exact Nat.lt_succ_self _
      · exact Nat.lt_succ_of_lt (h.below j k hk)
    · rcases List.mem_cons.1 hk with hnew | hold <;> rcases List.mem_cons.1 hk' with hnew' | hold'
      · rw [(Event.keyGenerated.inj hnew).1, (Event.keyGenerated.inj hnew').1]
      · obtain ⟨-, rfl⟩ := Event.keyGenerated.inj hnew
        exact absurd heq.symm (Nat.ne_of_lt (h.below j' k' hold'))
      · obtain ⟨-, rfl⟩ := Event.keyGenerated.inj hnew'
        exact absurd heq (Nat.ne_of_lt (h.below j k hold))
      · exact h.process j j' k k' hold hold' heq
  | _ =>
    refine ⟨fun j k hk => ?_, fun j j' k k' hk hk' heq => ?_⟩
    · exact h.below j k (List.mem_of_ne_of_mem (by simp) hk)
    · exact h.process j j' k k' (List.mem_of_ne_of_mem (by simp) hk)
        (List.mem_of_ne_of_mem (by simp) hk') heq

theorem keysDistinct_of_reaches (h₀ : s₀.history = []) (h : (system P).Reaches (.initial s₀) c) :
    KeysDistinct c.shared := by
  refine invariant_of_moves h₀ ?_ (fun d s hs => ⟨hs.below, hs.process⟩)
    (fun _ hm => keysDistinct_occurs hm.occurs) h
  refine ⟨fun i k hk => ?_, fun i j k k' hk => ?_⟩
  · rw [h₀] at hk
    cases hk
  · rw [h₀] at hk
    cases hk

/-! ## The requests behind the events -/

/-- The request behind a stored archive. -/
theorem issuance_of_stored (h₀ : s₀.history = []) (h : (system P).Reaches (.initial s₀) c)
    {e : Event} (he : e ∈ c.shared.history) {k : PrivateKey} (hk : e.stored = some k) :
    ∃ (machineName : String) (r : CertRequest) (I : Issuance P machineName r),
      k = ⟨I.user.id, I.archive⟩ ∧
      .certificatesCommitted e.pid I.writes I.time ∈ c.shared.own e.pid ∧
      .keyGenerated e.pid I.key ∈ c.shared.history := by
  obtain ⟨req, -, hown, htrace⟩ := trace_of_mem_history h₀ h he
  cases e with
  | privateKeysCommitted i ws =>
    rcases mem_trace htrace hown with ⟨m, r, evs, -, hapi, hsub, hmem⟩ | hweb
    · obtain ⟨-, r', I, bytes, stored, -, -, rfl, rfl⟩ := privateKeysCommitted_cases hapi hmem
      rw [stored_keyWrite] at hk
      refine ⟨m, r', I, (Option.some.inj hk).symm, ?_, ?_⟩
      · exact hsub (by simp [Issuance.delivered, Issuance.committed])
      · refine (State.mem_own.1 (hsub ?_)).1
        simp [Issuance.delivered, Issuance.committed]
    · cases hweb
  | _ => cases hk

/-- The private key in the archive is the one of the certificate. -/
def BelongsTo (archive : Pkcs12Archive) (row : PublicCertificate) : Prop :=
  archive.privateKey.publicKey = row.certificate.publicKey

instance (archive : Pkcs12Archive) (row : PublicCertificate) : Decidable (BelongsTo archive row) :=
  inferInstanceAs (Decidable (_ = _))

/-- An archive belongs to a certificate when they come from the same request. -/
theorem belongsTo_iff (h₀ : s₀.history = []) (h : (system P).Reaches (.initial s₀) c)
    {e e' : Event} (he : e ∈ c.shared.history) (he' : e' ∈ c.shared.history) {k : PrivateKey}
    {row : PublicCertificate} (hk : e.stored = some k) (hrow : e'.issued = some row) :
    BelongsTo k.keyPkcs12 row ↔ e.pid = e'.pid := by
  obtain ⟨m, r, I, rfl, hcommit, hgen⟩ := issuance_of_stored h₀ h he hk
  obtain ⟨m', r', I', rfl, hcommit', hgen'⟩ := issuance_of_issued h₀ h he' hrow
  have hkey' : I'.row.certificate.publicKey = I'.key.publicKey := I'.certificate_spec.2.1
  constructor
  · intro hbelongs
    have hkeys : I.key = I'.key := AsymmetricAlgorithm.publicKey_inj.1 (hbelongs.trans hkey')
    exact (keysDistinct_of_reaches h₀ h).process _ _ _ _ hgen hgen' (by rw [hkeys])
  · intro hpid
    rw [← hpid] at hcommit'
    obtain ⟨req, -, -, htrace⟩ := trace_of_mem_history h₀ h he
    obtain ⟨hws, -⟩ := certificatesCommitted_unique htrace hcommit hcommit'
    have hrow' : I.row = I'.row := by
      have hinserted : insertedRow I.writes = insertedRow I'.writes := by rw [hws]
      rw [I.insertedRow_writes, I'.insertedRow_writes] at hinserted
      exact Option.some.inj hinserted
    rw [← hrow']
    exact I.certificate_spec.2.1.symm

/-! ## Stored and live -/

/-- An archive was stored for the user. -/
def ArchiveStored (uid : String) (history : List Event) : Prop :=
  ∃ e ∈ history, ∃ k, e.stored = some k ∧ k.uid = uid

/-- A request to `IssueCertificate` for the user was answered with 200: its client has the archive, or
the web server has put it into the memory cache. -/
inductive Answered200 (c : Configuration) : String → Prop
  | api {n : ℕ} {machineName : String} {r : CertRequest} {archive : Pkcs12Archive}
      (h : c.procs n = some (.api machineName (.issue r), .done (.ok archive))) : Answered200 c r.uid
  | web {n : ℕ} {machineName uid : String} {d : RequestNewCertDetails} {archive : Pkcs12Archive}
      {expires time : Time} (hreq : c.request n = some (.web machineName uid (.new d)))
      (h : .cacheSet n (CertController.cacheKey uid) archive expires time ∈ c.shared.history) :
      Answered200 c uid

theorem archiveStored_of_issueAnswer {n : ℕ} {machineName : String} {r : CertRequest}
    {archive : Pkcs12Archive} {evs : List Event}
    (h : IssueAnswer P n machineName r (.ok archive) evs) : ArchiveStored r.uid evs := by
  obtain ⟨I, bytes, stored, -, rfl, -⟩ := h.archive archive rfl
  have huid : I.user.id = r.uid := I.authenticated.1
  exact ⟨_, List.mem_cons_self, _, stored_keyWrite I n stored, huid⟩

theorem archiveStored_of_answered200 (h₀ : s₀.history = [])
    (h : (system P).Reaches (.initial s₀) c) (h200 : Answered200 c uid) :
    ArchiveStored uid c.shared.history := by
  cases h200 with
  | @api n m r archive hdone =>
    have hanswer : IssueAnswer P n m r (.ok archive) (c.shared.own n) := answer_of_reaches h₀ h hdone
    obtain ⟨e, he, k, hk⟩ := archiveStored_of_issueAnswer hanswer
    exact ⟨e, State.own_subset he, k, hk⟩
  | @web n m uid d archive expires time hreq he =>
    obtain ⟨req, hreq', hown, htrace⟩ := trace_of_mem_history h₀ h he
    obtain rfl := Option.some.inj (hreq.symm.trans hreq')
    rcases mem_trace htrace hown with ⟨m', r, evs, -, hapi, -, he'⟩ | hweb
    · exact absurd he' (not_cacheSet_of_apiTrace hapi)
    · cases hweb with
      | cacheSet hfetch hsub hcaches =>
        cases hfetch with
        | new =>
          obtain ⟨e, he, k, hk⟩ := archiveStored_of_issueAnswer hcaches.answer
          exact ⟨e, (State.mem_own.1 (hsub he)).1, k, hk⟩

/-- The requests that have stored an archive of the user, newest first. -/
def storers (uid : String) (history : List Event) : List ℕ :=
  (history.filterMap (Event.storedFor uid)).map Prod.fst

/-- The requests that have issued a certificate to the user, newest first. -/
def issuers (uid : String) (history : List Event) : List ℕ :=
  (history.filterMap (Event.issuedTo uid)).map Prod.fst

theorem head?_storers {history : List Event} {i : ℕ} {k : PrivateKey}
    (h : lastStored uid history = some (i, k)) : (storers uid history).head? = some i := by
  rw [storers, List.head?_map, List.head?_filterMap]
  exact congrArg (Option.map Prod.fst) h

theorem head?_issuers {history : List Event} {j : ℕ} {row : PublicCertificate}
    (h : lastIssued uid history = some (j, row)) : (issuers uid history).head? = some j := by
  rw [issuers, List.head?_map, List.head?_filterMap]
  exact congrArg (Option.map Prod.fst) h

/-- The row `k` was stored last, by request `i`, and the row `row` was issued last, by request `j`. -/
structure StoredAndIssued (P : Platform) (c : Configuration) (uid : String) (i : ℕ) (k : PrivateKey)
    (j : ℕ) (row : PublicCertificate) : Prop where
  stored : lastStored uid c.shared.history = some (i, k)
  issued : lastIssued uid c.shared.history = some (j, row)
  /-- `DownloadPrivateKey` answers with the archive that was stored last. -/
  download : ∀ n machineName r sched archive, c.shared.own n = [] → r.uid = uid →
    (machine.alone n (answer (action P (.api machineName (.downloadPrivateKey r)))) sched
      c.shared).1 = .ok archive → archive = k.keyPkcs12
  /-- Only the certificate that was issued last can be live. -/
  live : ∀ p ∈ c.shared.publicCertificates.rows, p.uid = uid → Live c.shared.now p → p = row
  /-- It is not revoked but by a separate revocation. -/
  stays : (∀ e ∈ sinceIssued uid c.shared.history, ¬ e.Revokes row.serialNr) →
    row ∈ c.shared.publicCertificates.rows ∧ row.isRevoked = false
  belongs : BelongsTo k.keyPkcs12 row ↔ i = j
  /-- Every issuance has stored its archive, in the order of the issuances. -/
  ordered : storers uid c.shared.history = issuers uid c.shared.history → BelongsTo k.keyPkcs12 row

theorem storedAndIssued_of_archiveStored (h₀ : s₀.history = []) (hempty : s₀.publicCertificates = ∅)
    (h : (system P).Reaches (.initial s₀) c) (hstored : ArchiveStored uid c.shared.history) :
    ∃ i k j row, StoredAndIssued P c uid i k j row := by
  obtain ⟨e₀, he₀, k₀, hk₀, rfl⟩ := hstored
  obtain ⟨m, r, I, rfl, hcommit, -⟩ := issuance_of_stored h₀ h he₀ hk₀
  obtain ⟨i, k, hlast⟩ := exists_lastStored he₀ hk₀
  obtain ⟨j, row, hlast'⟩ := exists_lastIssued (State.mem_own.1 hcommit).1
    (I.insertedRow_writes)
  have hrowuid : I.row.uid = I.user.id := rfl
  rw [hrowuid] at hlast'
  obtain ⟨e, he, hk, hku, rfl⟩ := mem_of_lastStored hlast
  obtain ⟨e', earlier, hhist, hrow, hu, rfl, hlater⟩ := history_of_lastIssued hlast'
  have he' : e' ∈ c.shared.history := by
    rw [hhist]
    exact List.mem_append_right _ List.mem_cons_self
  have hbelongs := belongsTo_iff h₀ h he he' hk hrow
  refine ⟨e.pid, k, e'.pid, row, hlast, hlast', ?_, ?_, ?_, hbelongs, ?_⟩
  · intro n m' r' sched archive hn hr' hok
    obtain ⟨k', hfind, rfl⟩ := stored_of_download hn hok
    rw [hr', storesLast_of_reaches h₀ h _ _ _ hlast] at hfind
    rw [Option.some.inj hfind]
  · intro p hp hpu hlive
    refine eq_of_live (ledger_of_reaches h₀ hempty h) hhist hrow ?_ hp (hpu.trans hu.symm) hlive
    rw [hu]
    exact hlater
  · exact stays_of_reaches h₀ h _ e' earlier row hhist hrow
  · intro horder
    have hheads := congrArg List.head? horder
    rw [head?_storers hlast, head?_issuers hlast'] at hheads
    exact hbelongs.2 (Option.some.inj hheads)

/-- Once an archive was stored for a user, as it was when an issuance was answered with 200: the stored
archive is the one that was written last, and `DownloadPrivateKey` answers with it; the certificate
that was issued last is the only one that can be live, and it is unless it was revoked separately; and
the two belong together if and only if the same request was last in both, as it is when every issuance
has stored its archive and in their order. -/
theorem storedKey_of_reaches (P : Platform) {s₀ : State} (h₀ : s₀.history = [])
    (hempty : s₀.publicCertificates = ∅) {c : Configuration}
    (h : (system P).Reaches (.initial s₀) c) (uid : String) :
    (Answered200 c uid → ArchiveStored uid c.shared.history) ∧
    (ArchiveStored uid c.shared.history → ∃ i k j row, StoredAndIssued P c uid i k j row) :=
  ⟨archiveStored_of_answered200 h₀ h, storedAndIssued_of_archiveStored h₀ hempty h⟩

section

open Deployment

/-- The request for a certificate of `a3`. -/
def issueRequest : Request := .api "aslcert01" (.issue certRequest)

/-- Process `i` was answered with an archive. -/
def delivered (c : Configuration) (i : ℕ) (req : Request) : Bool :=
  match c.answer i with
  | some (req', .ok _) => req' = req
  | _ => false

theorem procs_of_delivered {i : ℕ} {req : Request} (h : delivered c i req = true) :
    ∃ archive, c.procs i = some (req, .done (.ok archive)) := by
  simp only [delivered] at h
  split at h
  · rename_i req' archive hanswer
    obtain rfl : req' = req := by simpa using h
    exact ⟨archive, Config.procs_of_answer hanswer⟩
  · cases h

/-- The form of the web server for a new certificate. -/
def newForm : Request :=
  .web "aslcert02" "a3" (.new ⟨"correct horse battery", "Astrid"⟩)

/-- Two issuances after one another, the second for the web server. -/
def issueTwice : List (Act Request Choice ℕ) :=
  .arrive 0 issueRequest :: (steps 0 18 ++ .arrive 1 newForm :: steps 1 25)

/-- Both have issued and stored, in this order. -/
def inOrder (c : Configuration) : Bool :=
  delivered c 0 issueRequest && decide (issuers "a3" c.shared.history = [1, 0]) &&
    decide (storers "a3" c.shared.history = [1, 0])

theorem storedKey_issueTwice : ∃ (c : Configuration) (k : PrivateKey) (row : PublicCertificate),
    (system platform).Reaches (.initial (installed users)) c ∧
      StoredAndIssued platform c "a3" 1 k 1 row ∧ BelongsTo k.keyPkcs12 row := by
  have hrun : ((system platform).run issueTwice (.initial (installed users))).map inOrder =
      some true := by
    decide +kernel
  obtain ⟨c, hc, hcheck⟩ := Option.map_eq_some_iff.1 hrun
  simp only [inOrder, Bool.and_eq_true, decide_eq_true_eq] at hcheck
  obtain ⟨⟨hdelivered, hissuers⟩, hstorers⟩ := hcheck
  obtain ⟨archive, hdone⟩ := procs_of_delivered hdelivered
  have hreach := System.reaches_of_run hc
  obtain ⟨h200, hstored⟩ := storedKey_of_reaches platform rfl rfl hreach "a3"
  obtain ⟨i, k, j, row, h⟩ := hstored (h200 (.api hdone))
  have hi := head?_storers h.stored
  have hj := head?_issuers h.issued
  rw [hstorers] at hi
  rw [hissuers] at hj
  obtain rfl := Option.some.inj hi
  obtain rfl := Option.some.inj hj
  exact ⟨c, k, row, hreach, h, h.ordered (hstorers.trans hissuers.symm)⟩

/-- When every request was an issuance for one user and was answered with an archive, a download
returns the key of the certificate that is not revoked. -/
def StoredKeyBelongs (P : Platform) (s₀ : State) (uid : String) : Prop :=
  ∀ c : Configuration, (system P).Reaches (.initial s₀) c →
    (∀ n req p, c.procs n = some (req, p) → ∃ machineName r archive,
      req = .api machineName (.issue r) ∧ r.uid = uid ∧ p = .done (.ok archive)) →
    ∀ n machineName r sched archive, c.procs n = none → r.uid = uid →
      (machine.alone n (answer (action P (.api machineName (.downloadPrivateKey r)))) sched
        c.shared).1 = .ok archive →
      ∀ row ∈ c.shared.publicCertificates.rows, row.uid = uid → row.isRevoked = false →
        BelongsTo archive row

/-- The second request issues after the first one and stores its archive before it. -/
def crossingRequests : List (Act Request Choice ℕ) :=
  .arrive 0 issueRequest :: .arrive 1 issueRequest :: (steps 0 10 ++ (steps 1 19 ++ steps 0 8))

/-- The answer of a download that runs alone. -/
def downloadReply (c : Configuration) : Reply :=
  (machine.alone 2 (answer (action platform (.api "aslcert01"
    (.downloadPrivateKey ⟨"a3", "Astrid"⟩)))) noFailure c.shared).1

/-- The download returns a key that does not belong to the certificate. -/
def mismatch (c : Configuration) : Bool :=
  match downloadReply c with
  | .ok archive => c.shared.publicCertificates.rows.any fun row =>
      decide (row.uid = "a3" ∧ row.isRevoked = false ∧ ¬ BelongsTo archive row)
  | _ => false

theorem storedKey_crossed : ¬ StoredKeyBelongs platform (installed users) "a3" := by
  intro hclaim
  have hrun : ((system platform).run crossingRequests (.initial (installed users))).map
      (fun c => delivered c 0 issueRequest && delivered c 1 issueRequest && mismatch c) =
        some true := by
    decide +kernel
  obtain ⟨c, hc, hcheck⟩ := Option.map_eq_some_iff.1 hrun
  simp only [Bool.and_eq_true] at hcheck
  obtain ⟨⟨hzero, hone⟩, hmismatch⟩ := hcheck
  obtain ⟨archive₀, hzero⟩ := procs_of_delivered hzero
  obtain ⟨archive₁, hone⟩ := procs_of_delivered hone
  have htwo : ∀ a ∈ crossingRequests, a.process = some 0 ∨ a.process = some 1 := by decide
  have hall : ∀ n req p, c.procs n = some (req, p) → ∃ machineName r archive,
      req = .api machineName (.issue r) ∧ r.uid = "a3" ∧ p = .done (.ok archive) := by
    intro n req p hp
    rcases procs_cases hc htwo hzero hone hp with ⟨-, rfl, rfl⟩ | ⟨-, rfl, rfl⟩
    · exact ⟨_, _, _, rfl, rfl, rfl⟩
    · exact ⟨_, _, _, rfl, rfl, rfl⟩
  have hidle : c.procs 2 = none := by
    by_contra hne
    exact absurd (eq_or_eq_of_procs hc htwo hne) (by decide)
  simp only [mismatch] at hmismatch
  split at hmismatch
  · rename_i archive harchive
    simp only [List.any_eq_true, decide_eq_true_eq] at hmismatch
    obtain ⟨row, hrow, hu, hrev, hnot⟩ := hmismatch
    exact hnot (hclaim c (System.reaches_of_run hc) hall 2 _ _ _ archive hidle rfl harchive row hrow
      hu hrev)
  · cases hmismatch

end

end IMoviesCA
