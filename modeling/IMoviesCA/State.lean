import IMoviesCA.Lib.Program
import IMoviesCA.DataModel

/-!
# The shared state and its atomic operations

What the CA servers and the web server share: the tables of the two databases, the backup folder,
the memory cache of the web server and one clock.  An operation (`Op`) is one access to it, or a
call that may fail; `exec` performs it for process `i`.

A transaction reads the table once (`readCertificates`, its snapshot), executes statements that
stay its own, and writes them all at its commit, unless the commit fails.  A statement or a commit
that violates the primary key, or that updates a row that is not there, fails.  Any operation may
also fail for a reason outside of the program (`Choice.throws`).

`State.history` records, newest first, what the processes read and wrote, and `Occurs` is what an
event says of the states before and after it: `exec_cases` says that an operation is one event or
changes nothing.
-/

namespace IMoviesCA

/-- The answers of the two servers. -/
inductive Reply
  | ok (archive : Pkcs12Archive)
  | crl (crl : X509Crl)
  | cipherSuites (suites : List CipherSuite)
  | noContent
  | badRequest (message : Option String)
  | unauthorized
  | serverError
  /-- The answer of `nginx` in place of a server's. -/
  | badGateway
  | view
  | certificates (data : CertificatesData)
  | adminStats (stats : AdminStats)
  | redirect (success : Bool) (message : String)
  | file (archive : Pkcs12Archive)
  deriving DecidableEq, Repr

/-- `HttpResponseMessage.IsSuccessStatusCode` of an answer of the CA. -/
def Reply.isSuccessStatusCode : Reply → Bool
  | .ok _ => true
  | .crl _ => true
  | .cipherSuites _ => true
  | .noContent => true
  | _ => false

/-- The archive that an answer hands out. -/
def Reply.archive? : Reply → Option Pkcs12Archive
  | .ok archive => some archive
  | .file archive => some archive
  | _ => none

/-- The exceptions. -/
inductive Fault
  | external
  | dbUpdate
  | cryptographic
  | overflow
  | format
  deriving DecidableEq, Repr

/-- Calls whose only effect here is that they may throw. -/
inductive Site
  | beginTransaction
  | createCertificate
  | encrypt
  | startProcess
  | exportPkcs12
  | sendRequest
  deriving DecidableEq, Repr

/-- What the history records. -/
inductive Event
  | userRead (i : ℕ) (uid : String) (user : Option User)
  | usersCommitted (i : ℕ) (ws : List UserWrite)
  | certificatesRead (i : ℕ) (t : Table PublicCertificate) (time : Time)
  | certificatesCommitted (i : ℕ) (ws : List CertificateWrite) (time : Time)
  | privateKeyRead (i : ℕ) (uid : String) (key : Option PrivateKey)
  | privateKeysCommitted (i : ℕ) (ws : List PrivateKeyWrite)
  | keyGenerated (i : ℕ) (key : AsymmetricAlgorithm)
  | fileWritten (i : ℕ) (path : String) (bytes : List UInt8)
  | received (i : ℕ) (r : Reply)
  | cacheSet (i : ℕ) (key : String) (archive : Pkcs12Archive) (expires time : Time)
  | cacheRead (i : ℕ) (key : String) (archive : Option Pkcs12Archive) (time : Time)

/-- The process of an event. -/
def Event.pid : Event → ℕ
  | userRead i _ _ => i
  | usersCommitted i _ => i
  | certificatesRead i _ _ => i
  | certificatesCommitted i _ _ => i
  | privateKeyRead i _ _ => i
  | privateKeysCommitted i _ => i
  | keyGenerated i _ => i
  | fileWritten i _ _ => i
  | received i _ => i
  | cacheSet i _ _ _ _ => i
  | cacheRead i _ _ _ => i

/-- An entry of the memory cache, with its absolute expiration. -/
structure CacheEntry where
  value : Pkcs12Archive
  expires : Time

/-- What the servers share. -/
structure State where
  now : Time
  users : Table User
  publicCertificates : Table PublicCertificate
  privateCertificates : Table PrivateKey
  backupFolder : String → Option (List UInt8)
  memoryCache : String → Option CacheEntry
  /-- The number of key pairs generated so far. -/
  nextKey : ℕ
  history : List Event

/-- Leave an event in the history. -/
def State.record (s : State) (e : Event) : State := { s with history := e :: s.history }

/-- The events of process `i`, newest first. -/
def State.own (s : State) (i : ℕ) : List Event := s.history.filter fun e => e.pid = i

/-- One access to the shared state. -/
inductive Op
  | findUser (uid : String)
  | countEmail (email : String)
  | executeUsers (ws : List UserWrite)
  | commitUsers (ws : List UserWrite)
  | readCertificates
  | executeCertificates (ws : List CertificateWrite)
  | commitCertificates (ws : List CertificateWrite)
  | anyPrivateKey (uid : String)
  | findPrivateKey (uid : String)
  | executePrivateKeys (ws : List PrivateKeyWrite)
  | commitPrivateKeys (ws : List PrivateKeyWrite)
  | clock
  | generateKey (alg : EncryptionAlgorithms) (keySize : ℕ)
  | mayThrow (site : Site)
  | writeAllBytes (path : String) (bytes : List UInt8)
  | receive (r : Reply)
  | cacheTryGet (key : String)
  | cacheSet (key : String) (value : Pkcs12Archive) (expires : Time)

/-- The value of an operation that does not throw. -/
def Op.Val : Op → Type
  | findUser _ => Option User
  | countEmail _ => ℕ
  | readCertificates => Table PublicCertificate
  | anyPrivateKey _ => Bool
  | findPrivateKey _ => Option PrivateKey
  | clock => Time
  | generateKey _ _ => AsymmetricAlgorithm
  | receive _ => Reply
  | cacheTryGet _ => Option Pkcs12Archive
  | executeUsers _ | commitUsers _ | executeCertificates _ | commitCertificates _
  | executePrivateKeys _ | commitPrivateKeys _ | mayThrow _ | writeAllBytes _ _
  | cacheSet _ _ _ => Unit

/-- The result of an operation: a value or an exception. -/
abbrev Op.Res (e : Op) : Type := Except Fault e.Val

/-- What the program does not control: the operation is carried out, or it throws.  With `some n` it
throws half way: a file write has written `n` bytes, and an answer that was to be received is
replaced by one of `nginx`, which throws nothing. -/
inductive Choice
  | ok
  | throws (written : Option ℕ)
  deriving DecidableEq

/-- A statement of an open transaction: nothing is written yet, but a violation is found. -/
def executed {ρ κ π : Type} [Record ρ κ π] [DecidableEq κ] (t : Table ρ) (ws : List (Write ρ κ π)) :
    Except Fault Unit :=
  if (t.commit ws).isSome then .ok () else .error .dbUpdate

/-- `IMemoryCache.TryGetValue`: an entry is found until it expires. -/
def State.cached (s : State) (key : String) : Option Pkcs12Archive :=
  (s.memoryCache key).bind fun entry => if s.now < entry.expires then some entry.value else none

/-- Carry out an operation of process `i`. -/
def Op.run (i : ℕ) : (e : Op) → State → e.Res × State
  | findUser uid, s => (.ok (s.users.find? uid), s.record (.userRead i uid (s.users.find? uid)))
  | countEmail email, s => (.ok (s.users.rows.countP fun u => u.email = email), s)
  | executeUsers ws, s => (executed s.users ws, s)
  | commitUsers ws, s =>
      match s.users.commit ws with
      | some t => (.ok (), { s with users := t }.record (.usersCommitted i ws))
      | none => (.error .dbUpdate, s)
  | readCertificates, s =>
      (.ok s.publicCertificates, s.record (.certificatesRead i s.publicCertificates s.now))
  | executeCertificates ws, s => (executed s.publicCertificates ws, s)
  | commitCertificates ws, s =>
      match s.publicCertificates.commit ws with
      | some t =>
          (.ok (), { s with publicCertificates := t }.record (.certificatesCommitted i ws s.now))
      | none => (.error .dbUpdate, s)
  | anyPrivateKey uid, s => (.ok (s.privateCertificates.find? uid).isSome, s)
  | findPrivateKey uid, s => (.ok (s.privateCertificates.find? uid),
      s.record (.privateKeyRead i uid (s.privateCertificates.find? uid)))
  | executePrivateKeys ws, s => (executed s.privateCertificates ws, s)
  | commitPrivateKeys ws, s =>
      match s.privateCertificates.commit ws with
      | some t => (.ok (), { s with privateCertificates := t }.record (.privateKeysCommitted i ws))
      | none => (.error .dbUpdate, s)
  | clock, s => (.ok s.now, s)
  | generateKey alg keySize, s =>
      let key : AsymmetricAlgorithm := ⟨alg, keySize, s.nextKey⟩
      (.ok key, { s with nextKey := s.nextKey + 1 }.record (.keyGenerated i key))
  | mayThrow _, s => (.ok (), s)
  | writeAllBytes path bytes, s =>
      (.ok (), { s with backupFolder := Function.update s.backupFolder path (some bytes) }.record
        (.fileWritten i path bytes))
  | receive r, s => (.ok r, s.record (.received i r))
  | cacheTryGet key, s => (.ok (s.cached key), s.record (.cacheRead i key (s.cached key) s.now))
  | cacheSet key value expires, s =>
      (.ok (), { s with memoryCache := Function.update s.memoryCache key (some ⟨value, expires⟩) }.record
        (.cacheSet i key value expires s.now))

theorem Op.run_commitUsers {i : ℕ} {ws : List UserWrite} {s : State} {t : Table User}
    (h : s.users.commit ws = some t) : (commitUsers ws).run i s =
      (.ok (), { s with users := t }.record (.usersCommitted i ws)) := by
  simp only [run, h]

theorem Op.run_commitCertificates {i : ℕ} {ws : List CertificateWrite} {s : State}
    {t : Table PublicCertificate} (h : s.publicCertificates.commit ws = some t) :
    (commitCertificates ws).run i s =
      (.ok (), { s with publicCertificates := t }.record (.certificatesCommitted i ws s.now)) := by
  simp only [run, h]

/-- The result of an operation that is not carried out. -/
def Op.failed : (e : Op) → Option ℕ → e.Res
  | receive _, some _ => .ok .badGateway
  | _, _ => .error .external

/-- The operation throws when it is not carried out. -/
def Op.Throws (e : Op) : Prop := ∀ written, e.failed written = .error .external

/-- What an operation that is not carried out leaves behind. -/
def Op.leftBehind (i : ℕ) : Op → Option ℕ → State → State
  | writeAllBytes path bytes, some n, s => ((writeAllBytes path (bytes.take n)).run i s).2
  | receive _, some _, s => ((receive .badGateway).run i s).2
  | _, _, s => s

/-- Perform an operation of process `i`. -/
def exec (i : ℕ) (e : Op) (c : Choice) (s : State) : e.Res × State :=
  match c with
  | .ok => e.run i s
  | .throws written => (e.failed written, e.leftBehind i written s)

/-- The clock only moves forward. -/
def tick (d : ℕ) (s : State) : State := { s with now := s.now + d }

/-! ## Events -/

/-- The states before and after an event. -/
inductive Occurs : Event → State → State → Prop
  | userRead {i uid s} : Occurs (.userRead i uid (s.users.find? uid)) s
      (s.record (.userRead i uid (s.users.find? uid)))
  | usersCommitted {i ws s t} (h : s.users.commit ws = some t) : Occurs (.usersCommitted i ws) s
      ({ s with users := t }.record (.usersCommitted i ws))
  | certificatesRead {i s} : Occurs (.certificatesRead i s.publicCertificates s.now) s
      (s.record (.certificatesRead i s.publicCertificates s.now))
  | certificatesCommitted {i ws s t} (h : s.publicCertificates.commit ws = some t) :
      Occurs (.certificatesCommitted i ws s.now) s
        ({ s with publicCertificates := t }.record (.certificatesCommitted i ws s.now))
  | privateKeyRead {i uid s} : Occurs (.privateKeyRead i uid (s.privateCertificates.find? uid)) s
      (s.record (.privateKeyRead i uid (s.privateCertificates.find? uid)))
  | privateKeysCommitted {i ws s t} (h : s.privateCertificates.commit ws = some t) :
      Occurs (.privateKeysCommitted i ws) s
        ({ s with privateCertificates := t }.record (.privateKeysCommitted i ws))
  | keyGenerated {i alg keySize s} : Occurs (.keyGenerated i ⟨alg, keySize, s.nextKey⟩) s
      ({ s with nextKey := s.nextKey + 1 }.record (.keyGenerated i ⟨alg, keySize, s.nextKey⟩))
  | fileWritten {i path bytes s} : Occurs (.fileWritten i path bytes) s
      ({ s with backupFolder := Function.update s.backupFolder path (some bytes) }.record
        (.fileWritten i path bytes))
  | received {i r s} : Occurs (.received i r) s (s.record (.received i r))
  | cacheSet {i key value expires s} : Occurs (.cacheSet i key value expires s.now) s
      ({ s with memoryCache :=
          Function.update s.memoryCache key (some ⟨value, expires⟩) }.record
        (.cacheSet i key value expires s.now))
  | cacheRead {i key s} : Occurs (.cacheRead i key (s.cached key) s.now) s
      (s.record (.cacheRead i key (s.cached key) s.now))

theorem Occurs.history {e : Event} {s s' : State} (h : Occurs e s s') :
    s'.history = e :: s.history := by
  cases h <;> rfl

theorem Occurs.now {e : Event} {s s' : State} (h : Occurs e s s') : s'.now = s.now := by
  cases h <;> rfl

theorem Occurs.read {i : ℕ} {t : Table PublicCertificate} {time : Time} {s s' : State}
    (h : Occurs (.certificatesRead i t time) s s') :
    t = s.publicCertificates ∧ time = s.now ∧ s'.publicCertificates = s.publicCertificates := by
  cases h
  exact ⟨rfl, rfl, rfl⟩

theorem Occurs.commit {i : ℕ} {ws : List CertificateWrite} {time : Time} {s s' : State}
    (h : Occurs (.certificatesCommitted i ws time) s s') :
    time = s.now ∧ s.publicCertificates.commit ws = some s'.publicCertificates := by
  cases h with
  | certificatesCommitted hc => exact ⟨rfl, hc⟩

theorem Occurs.own {e : Event} {s s' : State} (h : Occurs e s s') : s'.own e.pid = e :: s.own e.pid := by
  rw [State.own, h.history, List.filter_cons_of_pos (by simp)]
  rfl

theorem Occurs.own_of_ne {e : Event} {s s' : State} (h : Occurs e s s') {i : ℕ} (hi : e.pid ≠ i) :
    s'.own i = s.own i := by
  rw [State.own, h.history, List.filter_cons_of_neg (by simpa using hi)]
  rfl

theorem State.mem_own {s : State} {i : ℕ} {e : Event} : e ∈ s.own i ↔ e ∈ s.history ∧ e.pid = i := by
  simp [own, List.mem_filter]

theorem State.own_subset {s : State} {i : ℕ} : s.own i ⊆ s.history := fun _ he => (State.mem_own.1 he).1

theorem run_cases (i : ℕ) (e : Op) (s : State) :
    (e.run i s).2 = s ∨ ∃ ev, ev.pid = i ∧ Occurs ev s (e.run i s).2 := by
  cases e with
  | findUser uid => exact .inr ⟨_, rfl, .userRead⟩
  | commitUsers ws =>
    simp only [Op.run]
    split
    · rename_i t h
      exact .inr ⟨_, rfl, .usersCommitted h⟩
    · exact .inl rfl
  | readCertificates => exact .inr ⟨_, rfl, .certificatesRead⟩
  | commitCertificates ws =>
    simp only [Op.run]
    split
    · rename_i t h
      exact .inr ⟨_, rfl, .certificatesCommitted h⟩
    · exact .inl rfl
  | findPrivateKey uid => exact .inr ⟨_, rfl, .privateKeyRead⟩
  | commitPrivateKeys ws =>
    simp only [Op.run]
    split
    · rename_i t h
      exact .inr ⟨_, rfl, .privateKeysCommitted h⟩
    · exact .inl rfl
  | generateKey alg keySize => exact .inr ⟨_, rfl, .keyGenerated⟩
  | writeAllBytes path bytes => exact .inr ⟨_, rfl, .fileWritten⟩
  | receive r => exact .inr ⟨_, rfl, .received⟩
  | cacheTryGet key => exact .inr ⟨_, rfl, .cacheRead⟩
  | cacheSet key value expires => exact .inr ⟨_, rfl, .cacheSet⟩
  | countEmail | executeUsers | executeCertificates | anyPrivateKey | executePrivateKeys | clock
  | mayThrow => exact .inl rfl

/-- What an operation can do to the state: nothing, or one event of its process. -/
theorem exec_cases (i : ℕ) (e : Op) (c : Choice) (s : State) :
    (exec i e c s).2 = s ∨ ∃ ev, ev.pid = i ∧ Occurs ev s (exec i e c s).2 := by
  cases c with
  | ok => exact run_cases i e s
  | throws written =>
    cases e with
    | writeAllBytes path bytes =>
      cases written with
      | none => exact .inl rfl
      | some n => exact .inr ⟨_, rfl, .fileWritten⟩
    | receive r =>
      cases written with
      | none => exact .inl rfl
      | some n => exact .inr ⟨_, rfl, .received⟩
    | _ => exact .inl rfl

theorem exec_own_of_ne {i j : ℕ} (h : i ≠ j) (e : Op) (c : Choice) (s : State) :
    (exec j e c s).2.own i = s.own i := by
  rcases exec_cases j e c s with hs | ⟨ev, rfl, hev⟩
  · rw [hs]
  · exact hev.own_of_ne h.symm

theorem exec_now (i : ℕ) (e : Op) (c : Choice) (s : State) : (exec i e c s).2.now = s.now := by
  rcases exec_cases i e c s with hs | ⟨ev, -, hev⟩
  · rw [hs]
  · exact hev.now

end IMoviesCA
