import IMoviesCA.AllOrNothing
import IMoviesCA.Deployment

/-!
# Storing private keys at the same time

Any number of calls of `AddPrivateKey`, interleaved operation by operation.  A row holds the archive
of a call that has returned, and the other rows stay as they are.  But the transaction reads without
a lock: a call that has found no row fails if another one stores a row first, so the calls are free
of races if and only if no insert comes late (`storing_raceFree_iff`).
-/

namespace IMoviesCA

open CADBModifier

/-- The calls of `AddPrivateKey`. -/
def keyStore : System PrivateKey Op Op.Res State Choice ℕ (Except Fault Unit) where
  toMachine := machine
  handler privKey := (addPrivateKey privKey).run

/-- The calls that were started, and the state that they share. -/
abbrev KeyCalls := Config PrivateKey Op Op.Res State (Except Fault Unit)

variable {k : PrivateKey} {stored : Bool} {t t' : Table PrivateKey} {s s₀ s' : State} {i : ℕ}

/-! ## The stages of a call -/

namespace AddPrivateKey

/-- After an operation the call goes on with its value, or fails. -/
def resume {e : Op} (k : e.Val → Program Op Op.Res (Except Fault Unit)) :
    e.Res → Program Op Op.Res (Except Fault Unit)
  | .ok v => k v
  | .error f => .done (.error f)

/-- An access that ends the program when it throws. -/
def orFail (e : Op) (k : e.Val → Program Op Op.Res (Except Fault Unit)) :
    Program Op Op.Res (Except Fault Unit) :=
  .op e (resume k)

/-- The commit is left. -/
def committing (stored : Bool) (privKey : PrivateKey) : Program Op Op.Res (Except Fault Unit) :=
  orFail (.commitPrivateKeys [privateKeyWrite stored privKey]) fun _ => .done (.ok ())

/-- The statement and the commit are left. -/
def executing (stored : Bool) (privKey : PrivateKey) : Program Op Op.Res (Except Fault Unit) :=
  orFail (.executePrivateKeys [privateKeyWrite stored privKey]) fun _ => committing stored privKey

/-- The query, the statement and the commit are left. -/
def looking (privKey : PrivateKey) : Program Op Op.Res (Except Fault Unit) :=
  orFail (.anyPrivateKey privKey.uid) fun stored => executing stored privKey

/-- `AddPrivateKey`, from its first access on. -/
def beginning (privKey : PrivateKey) : Program Op Op.Res (Except Fault Unit) :=
  orFail (.mayThrow .beginTransaction) fun _ => looking privKey

theorem run_bind (e : Op) (f : e.Val → Action Unit) :
    (call e >>= f).run = orFail e fun v => (f v).run := by
  show Program.op e _ = Program.op e _
  congr 1
  funext x
  cases x <;> rfl

theorem run_addPrivateKey (privKey : PrivateKey) : (addPrivateKey privKey).run = beginning privKey := by
  refine (run_bind _ _).trans (congrArg _ (funext fun _ => ?_))
  refine (run_bind _ _).trans (congrArg _ (funext fun stored => ?_))
  refine (run_bind _ _).trans (congrArg _ (funext fun _ => ?_))
  show Program.op _ _ = Program.op _ _
  congr 1
  funext x
  cases x <;> rfl

/-- The programs of a call: one that has found a row is right about it, as no row is ever removed. -/
inductive Stage (k : PrivateKey) (t : Table PrivateKey) : Program Op Op.Res (Except Fault Unit) → Prop
  | beginning : Stage k t (beginning k)
  | looking : Stage k t (looking k)
  | executing {stored : Bool} (h : stored = true → k.uid ∈ t.keys) : Stage k t (executing stored k)
  | committing {stored : Bool} (h : stored = true → k.uid ∈ t.keys) : Stage k t (committing stored k)
  | ended (result : Except Fault Unit) : Stage k t (.done result)

theorem Stage.mono {p : Program Op Op.Res (Except Fault Unit)} (h : Stage k t p)
    (hkeys : t.keys ⊆ t'.keys) : Stage k t' p := by
  cases h with
  | beginning => exact .beginning
  | looking => exact .looking
  | executing h => exact .executing fun hs => hkeys (h hs)
  | committing h => exact .committing fun hs => hkeys (h hs)
  | ended result => exact .ended result

/-- The row that the next operation of a call inserts. -/
def inserting : Program Op Op.Res (Except Fault Unit) → Option PrivateKey
  | .op (.executePrivateKeys [.insert privKey]) _ => some privKey
  | .op (.commitPrivateKeys [.insert privKey]) _ => some privKey
  | _ => none

/-! ## One operation of a call -/

theorem isSome_commit_iff : (t.commit [privateKeyWrite stored k]).isSome ↔
    (stored = true ↔ k.uid ∈ t.keys) := by
  have hkey : Record.key k = k.uid := rfl
  cases stored <;> by_cases h : k.uid ∈ t.keys <;>
    simp [privateKeyWrite, Table.commit, Table.write, hkey, h]

/-- What the next operation of a call leads to. -/
inductive Next (k : PrivateKey) (p : Program Op Op.Res (Except Fault Unit)) (s : State) :
    Choice → Program Op Op.Res (Except Fault Unit) → State → Prop
  | fails {written : Option ℕ} :
      Next k p s (.throws written) (.done (.error .external)) s
  | refused (hrow : inserting p = some k) (hkey : k.uid ∈ s.privateCertificates.keys) :
      Next k p s .ok (.done (.error .dbUpdate)) s
  | goesOn {p' : Program Op Op.Res (Except Fault Unit)}
      (hfresh : ∀ row, inserting p = some row → row.uid ∉ s.privateCertificates.keys)
      (hstage : Stage k s.privateCertificates p') (hp : ∀ result, p' ≠ .done result) :
      Next k p s .ok p' s
  | stores {stored : Bool} {s' : State}
      (hfresh : ∀ row, inserting p = some row → row.uid ∉ s.privateCertificates.keys)
      (hcommit : s.privateCertificates.commit [privateKeyWrite stored k] =
        some s'.privateCertificates) :
      Next k p s .ok (.done (.ok ())) s'

theorem Next.stage {p p' : Program Op Op.Res (Except Fault Unit)} {ch : Choice}
    (h : Next k p s ch p' s') : Stage k s'.privateCertificates p' := by
  cases h with
  | fails => exact .ended _
  | refused => exact .ended _
  | goesOn _ hstage => exact hstage
  | stores => exact .ended _

theorem next_of_throws {e : Op} {g : e.Res → Program Op Op.Res (Except Fault Unit)}
    {written : Option ℕ} (he : e.Throws) (hleft : e.leftBehind i written s = s)
    (hg : g (.error .external) = .done (.error .external)) :
    Next k (.op e g) s (.throws written) (g (exec i e (.throws written) s).1)
      (exec i e (.throws written) s).2 := by
  rw [exec, he written, hleft, hg]
  exact .fails

/-- A statement of the transaction, or its commit, is refused only if it inserts. -/
theorem key_mem_of_refused (h : stored = true → k.uid ∈ t.keys)
    (hnone : ¬ (t.commit [privateKeyWrite stored k]).isSome) : stored = false ∧ k.uid ∈ t.keys := by
  rw [isSome_commit_iff] at hnone
  cases stored <;> simp_all

theorem fresh_of_isSome {row : PrivateKey} (h : (t.commit [privateKeyWrite stored k]).isSome)
    (hrow : inserting (executing stored k) = some row ∨ inserting (committing stored k) = some row) :
    row.uid ∉ t.keys := by
  rw [isSome_commit_iff] at h
  cases stored with
  | true => rcases hrow with hrow | hrow <;> cases hrow
  | false =>
    have hk : k = row := by
      rcases hrow with hrow | hrow <;> exact Option.some.inj hrow
    subst hk
    simpa using h

theorem next_executing (h : stored = true → k.uid ∈ s.privateCertificates.keys) :
    Next k (executing stored k) s .ok
      (resume (fun _ => committing stored k)
        (exec i (.executePrivateKeys [privateKeyWrite stored k]) .ok s).1)
      (exec i (.executePrivateKeys [privateKeyWrite stored k]) .ok s).2 := by
  have hexec : exec i (.executePrivateKeys [privateKeyWrite stored k]) .ok s =
      (executed s.privateCertificates [privateKeyWrite stored k], s) := rfl
  rw [hexec]
  unfold executed
  split_ifs with hsome
  · exact .goesOn (fun row hrow => fresh_of_isSome hsome (Or.inl hrow)) (.committing h)
      (fun result hdone => by cases hdone)
  · obtain ⟨rfl, hkey⟩ := key_mem_of_refused h hsome
    exact .refused rfl hkey

theorem next_committing (h : stored = true → k.uid ∈ s.privateCertificates.keys) :
    Next k (committing stored k) s .ok
      (resume (fun _ => .done (.ok ()))
        (exec i (.commitPrivateKeys [privateKeyWrite stored k]) .ok s).1)
      (exec i (.commitPrivateKeys [privateKeyWrite stored k]) .ok s).2 := by
  cases hcommit : s.privateCertificates.commit [privateKeyWrite stored k] with
  | none =>
    have hexec : exec i (.commitPrivateKeys [privateKeyWrite stored k]) .ok s =
        (.error .dbUpdate, s) := by
      simp only [exec, Op.run, hcommit]
    obtain ⟨rfl, hkey⟩ := key_mem_of_refused h (by simp [hcommit])
    rw [hexec]
    exact .refused rfl hkey
  | some t =>
    have hexec : exec i (.commitPrivateKeys [privateKeyWrite stored k]) .ok s =
        (.ok (), { s with privateCertificates := t }.record
          (.privateKeysCommitted i [privateKeyWrite stored k])) := by
      simp only [exec, Op.run, hcommit]
    have hsome : (s.privateCertificates.commit [privateKeyWrite stored k]).isSome := by
      simp [hcommit]
    rw [hexec]
    exact .stores (fun row hrow => fresh_of_isSome hsome (Or.inr hrow)) hcommit

theorem next_of_stage {e : Op} {g : e.Res → Program Op Op.Res (Except Fault Unit)} {ch : Choice}
    (h : Stage k s.privateCertificates (.op e g)) :
    Next k (.op e g) s ch (g (exec i e ch s).1) (exec i e ch s).2 := by
  generalize hp : Program.op e g = p at h
  cases h with
  | beginning =>
    obtain ⟨rfl, hg⟩ := Program.op.inj hp
    obtain rfl := eq_of_heq hg
    cases ch with
    | throws written => exact next_of_throws (fun _ => rfl) rfl rfl
    | ok => exact .goesOn (fun row hrow => by cases hrow) .looking (fun result h => by cases h)
  | looking =>
    obtain ⟨rfl, hg⟩ := Program.op.inj hp
    obtain rfl := eq_of_heq hg
    cases ch with
    | throws written => exact next_of_throws (fun _ => rfl) rfl rfl
    | ok =>
      refine .goesOn (fun row hrow => by cases hrow) (.executing fun hfound => ?_)
        (fun result h => by cases h)
      obtain ⟨row, hrow⟩ := Option.isSome_iff_exists.1 hfound
      exact Table.mem_keys.2 ⟨row, Table.find?_eq_some_iff.1 hrow⟩
  | executing hstored =>
    obtain ⟨rfl, hg⟩ := Program.op.inj hp
    obtain rfl := eq_of_heq hg
    cases ch with
    | throws written => exact next_of_throws (fun _ => rfl) rfl rfl
    | ok => exact next_executing hstored
  | committing hstored =>
    obtain ⟨rfl, hg⟩ := Program.op.inj hp
    obtain rfl := eq_of_heq hg
    cases ch with
    | throws written => exact next_of_throws (fun _ => rfl) rfl rfl
    | ok => exact next_committing hstored
  | ended result => cases hp

end AddPrivateKey

open AddPrivateKey

/-! ## The calls together -/

/-- No operation removes a row. -/
theorem keys_subset_of_exec (i : ℕ) (e : Op) (ch : Choice) (s : State) :
    s.privateCertificates.keys ⊆ (exec i e ch s).2.privateCertificates.keys := by
  rcases exec_cases i e ch s with hs | ⟨ev, -, hev⟩
  · rw [hs]
    exact List.Subset.refl _
  · generalize (exec i e ch s).2 = s' at hev
    cases hev with
    | privateKeysCommitted hcommit => exact Table.keys_subset_of_commit hcommit
    | _ => exact List.Subset.refl _

theorem stage_of_reaches {c : KeyCalls} (h : keyStore.Reaches (.initial s₀) c)
    {p : Program Op Op.Res (Except Fault Unit)} (hi : c.procs i = some (k, p)) :
    Stage k c.shared.privateCertificates p := by
  refine System.procs_induction (Q := fun k p s => Stage k s.privateCertificates p) ?_ ?_ ?_ ?_ h hi
  · intro k s
    show Stage k s.privateCertificates (addPrivateKey k).run
    rw [run_addPrivateKey]
    exact .beginning
  · intro i e g ch k s hstage
    have hnext : Next k (.op e g) s ch _ (exec i e ch s).2 := next_of_stage hstage
    exact hnext.stage
  · exact fun i e ch k p s hstage => hstage.mono (keys_subset_of_exec i e ch s)
  · exact fun d k p s hstage => hstage

/-- The stored archives of a user. -/
def State.archivesOf (s : State) (uid : String) : List PrivateKey :=
  s.privateCertificates.rows.filter fun r => r.uid = uid

/-- The calls have stored their archives and nothing else: the one row of a uid for which a call has
returned holds the archive of such a call, and the others are as before. -/
structure Stored (s₀ : State) (c : KeyCalls) : Prop where
  archived : ∀ i k, c.answer i = some (k, .ok ()) → ∃ j k', c.answer j = some (k', .ok ()) ∧
    k'.uid = k.uid ∧ c.shared.archivesOf k.uid = [k']
  unchanged : ∀ uid, (∀ i k, c.answer i = some (k, .ok ()) → k.uid ≠ uid) →
    c.shared.archivesOf uid = s₀.archivesOf uid

/-- The calls are free of races: moreover, none fails because of another. -/
structure RaceFree (s₀ : State) (c : KeyCalls) : Prop extends Stored s₀ c where
  no_failure : ∀ i k f, c.answer i = some (k, .error f) → f = .external

theorem raceFree_initial (s₀ : State) : RaceFree s₀ (.initial s₀) := by
  refine ⟨⟨?_, fun uid _ => rfl⟩, ?_⟩
  · intro i k h
    cases h
  · intro i k f h
    cases h

theorem Stored.quiet {c c' : KeyCalls} (h : Stored s₀ c)
    (htable : c'.shared.privateCertificates = c.shared.privateCertificates)
    (hanswer : ∀ i k, c'.answer i = some (k, .ok ()) ↔ c.answer i = some (k, .ok ())) :
    Stored s₀ c' := by
  have hrows : ∀ uid, c'.shared.archivesOf uid = c.shared.archivesOf uid := by
    intro uid
    simp only [State.archivesOf, htable]
  constructor
  · simpa only [hanswer, hrows] using h.archived
  · simpa only [hanswer, hrows] using h.unchanged

theorem Stored.store {c c' : KeyCalls} (h : Stored s₀ c)
    (hcommit : c.shared.privateCertificates.commit [privateKeyWrite stored k] =
      some c'.shared.privateCertificates)
    (hanswer : ∀ j k', c'.answer j = some (k', .ok ()) ↔
      c.answer j = some (k', .ok ()) ∨ j = i ∧ k' = k) : Stored s₀ c' := by
  have hrow : c'.shared.archivesOf k.uid = [k] := Table.filter_key_of_find? (find?_of_keyWrite hcommit)
  have hrows : ∀ uid, k.uid ≠ uid → c'.shared.archivesOf uid = c.shared.archivesOf uid := by
    intro uid hne
    apply Table.filter_key_of_commit hcommit
    intro w hw
    obtain rfl := List.mem_singleton.1 hw
    cases stored with
    | true => exact hne
    | false => exact hne
  constructor
  · intro j k' hj
    by_cases huid : k'.uid = k.uid
    · exact ⟨i, k, (hanswer i k).2 (Or.inr ⟨rfl, rfl⟩), huid.symm, by rw [huid]; exact hrow⟩
    · have hold : c.answer j = some (k', .ok ()) := by
        rcases (hanswer j k').1 hj with hj | ⟨-, rfl⟩
        · exact hj
        · exact absurd rfl huid
      obtain ⟨j₁, k₁, hj₁, huid₁, hrow₁⟩ := h.archived j k' hold
      refine ⟨j₁, k₁, (hanswer j₁ k₁).2 (Or.inl hj₁), huid₁, ?_⟩
      rw [hrows _ (Ne.symm huid), hrow₁]
  · intro uid hnone
    have hne : k.uid ≠ uid := hnone i k ((hanswer i k).2 (Or.inr ⟨rfl, rfl⟩))
    rw [hrows uid hne]
    exact h.unchanged uid fun j k' hj => hnone j k' ((hanswer j k').2 (Or.inl hj))

/-- The answers after a step of process `i`, which had not ended. -/
theorem answer_afterStep {c : KeyCalls} {e : Op}
    {g : e.Res → Program Op Op.Res (Except Fault Unit)}
    (hi : c.procs i = some (k, .op e g)) (p : Program Op Op.Res (Except Fault Unit)) (s : State)
    (j : ℕ) (k' : PrivateKey) (result : Except Fault Unit) :
    (⟨s, Function.update c.procs i (some (k, p))⟩ : KeyCalls).answer j = some (k', result) ↔
      c.answer j = some (k', result) ∨ j = i ∧ k' = k ∧ p = .done result := by
  by_cases hij : j = i
  · subst hij
    have hnone : c.answer j = none := by simp [Config.answer, hi, Program.result?]
    rw [hnone]
    cases p with
    | done a => simp [Config.answer, Program.result?, eq_comm]
    | op e g => simp [Config.answer, Program.result?]
  · simp [Config.answer, hij]

/-- No call that has found no row executes or commits its insert after a row of that uid was
stored. -/
def InsertsFresh : Act PrivateKey Choice ℕ → KeyCalls → KeyCalls → Prop
  | .step i .ok, c, _ => ∀ k p row, c.procs i = some (k, p) → inserting p = some row →
      row.uid ∉ c.shared.privateCertificates.keys
  | _, _, _ => True

theorem raceFree_step {a : Act PrivateKey Choice ℕ} {c c' : KeyCalls}
    (hreach : keyStore.Reaches (.initial s₀) c) (h : RaceFree s₀ c) (hstep : keyStore.step a c = some c') :
    RaceFree s₀ c' ↔ InsertsFresh a c c' := by
  cases System.step_cases hstep with
  | @arrive i k hidle =>
    have hanswer : ∀ j k' result, (⟨c.shared, Function.update c.procs i
        (some (k, keyStore.handler k))⟩ : KeyCalls).answer j = some (k', result) ↔
          c.answer j = some (k', result) := by
      intro j k' result
      have hhandler : keyStore.handler k = beginning k := run_addPrivateKey k
      by_cases hij : j = i
      · subst hij
        simp [Config.answer, hidle, hhandler, beginning, orFail, Program.result?]
      · simp [Config.answer, hij]
    refine iff_of_true ⟨h.toStored.quiet rfl fun j k' => hanswer j k' _, fun j k' f hj => ?_⟩ trivial
    exact h.no_failure j k' f ((hanswer j k' _).1 hj)
  | env => exact iff_of_true ⟨h.toStored.quiet rfl fun _ _ => Iff.rfl, h.no_failure⟩ trivial
  | @step i ch k e g hi =>
    have hnext : Next k (.op e g) c.shared ch (g (exec i e ch c.shared).1)
      (exec i e ch c.shared).2 := next_of_stage (stage_of_reaches hreach hi)
    show RaceFree s₀ ⟨(exec i e ch c.shared).2,
      Function.update c.procs i (some (k, g (exec i e ch c.shared).1))⟩ ↔ _
    generalize g (exec i e ch c.shared).1 = p' at hnext ⊢
    generalize (exec i e ch c.shared).2 = s' at hnext ⊢
    have hanswer := answer_afterStep hi p' s'
    -- the row that the process is about to insert is the one of its program
    have hrow : ∀ {k' p row}, c.procs i = some (k', p) → inserting p = some row →
        inserting (.op e g) = some row := by
      intro k' p row hi' hrow
      obtain ⟨-, rfl⟩ := Prod.mk.inj (Option.some.inj (hi.symm.trans hi'))
      exact hrow
    cases hnext with
    | fails =>
      refine iff_of_true ⟨h.toStored.quiet rfl ?_, ?_⟩ trivial
      · simp [hanswer]
      · intro j k' f hj
        rcases (hanswer j k' _).1 hj with hj | ⟨-, -, hf⟩
        · exact h.no_failure j k' f hj
        · cases hf
          rfl
    | refused hinsert hkey =>
      refine iff_of_false ?_ fun hfresh => hfresh k _ k hi hinsert hkey
      intro h'
      have hf := h'.no_failure i k .dbUpdate ((hanswer i k _).2 (Or.inr ⟨rfl, rfl, rfl⟩))
      cases hf
    | goesOn hfresh hstage hp =>
      refine iff_of_true ⟨h.toStored.quiet rfl ?_, ?_⟩ fun k' p row hi' hr => hfresh row (hrow hi' hr)
      · simp [hanswer, hp]
      · simpa [hanswer, hp] using h.no_failure
    | stores hfresh hcommit =>
      refine iff_of_true ⟨h.toStored.store (i := i) hcommit ?_, ?_⟩ fun k' p row hi' hr =>
        hfresh row (hrow hi' hr)
      · simp [hanswer]
      · simpa [hanswer] using h.no_failure

/-- The calls are free of races in every state of a schedule if and only if no insert comes late. -/
theorem storing_raceFree_iff (s₀ : State) (as : List (Act PrivateKey Choice ℕ)) :
    keyStore.Along (fun _ _ c => RaceFree s₀ c) as (.initial s₀) ↔
      keyStore.Along InsertsFresh as (.initial s₀) :=
  System.along_iff (raceFree_initial s₀)
    (fun _ _ _ hreach h hstep => raceFree_step hreach h hstep) as

section

open Deployment

/-- A private key of `a3` to be stored. -/
def andresKey (material : ℕ) : PrivateKey where
  uid := "a3"
  keyPkcs12 := {
    certificate := {
      subjectName := [⟨.commonName, "a3"⟩]
      issuerName := coreCA.subjectName
      serialNumber := material
      notBefore := 0
      notAfter := 1
      publicKey := ⟨.ECDSA, 521, material⟩
      hashAlgorithm := "SHA512"
      extensions := []
      signedBy := coreCA.key.publicKey }
    privateKey := ⟨.ECDSA, 521, material⟩
    passphrase := "correct horse battery" }

/-- Two calls for `a3` find no row, and then the first one stores its archive. -/
def storeTwice : List (Act PrivateKey Choice ℕ) :=
  [.arrive 0 (andresKey 0), .arrive 1 (andresKey 1), .step 0 .ok, .step 0 .ok, .step 1 .ok,
    .step 1 .ok, .step 0 .ok, .step 0 .ok, .step 1 .ok]

/-- The second call fails because of the first one. -/
theorem storing_not_raceFree : ∃ c, keyStore.run storeTwice (.initial (installed users)) = some c ∧
    ¬ RaceFree (installed users) c := by
  have hrun : (keyStore.run storeTwice (.initial (installed users))).any (fun c =>
      decide (c.answer 1 = some (andresKey 1, .error .dbUpdate))) = true := by
    decide +kernel
  obtain ⟨c, hc, hfails⟩ := (Option.any_eq_true _ _).1 hrun
  refine ⟨c, hc, fun h => ?_⟩
  have hf := h.no_failure 1 _ _ (of_decide_eq_true hfails)
  cases hf

end

end IMoviesCA
