import IMoviesCA.Trace

/-!
# The contract of a program

`Meets` is the triple that the programs of the two servers are verified with.  It speaks of the
events of the process and of the clock, the only things that the other processes leave alone: from
a state with the events `evs`, at `T` or later, every operation keeps the events in the language
`L`, an exception ends the program with events in `E`, and a value that is returned meets the
postcondition.

There is one rule for each operation, and `meets_bind` chains them.
-/

namespace IMoviesCA

/-- What happens between two operations of process `i`. -/
def Rely (i : ℕ) (s s' : State) : Prop := s'.own i = s.own i ∧ s.now ≤ s'.now

theorem rely_refl (i : ℕ) (s : State) : Rely i s s := ⟨rfl, le_refl _⟩

theorem rely_trans {i : ℕ} {s s₁ s₂ : State} (h₁ : Rely i s s₁) (h₂ : Rely i s₁ s₂) :
    Rely i s s₂ := ⟨h₂.1.trans h₁.1, h₁.2.trans h₂.2⟩

theorem rely_tick (i d : ℕ) (s : State) : Rely i s (tick d s) := ⟨rfl, Nat.le_add_right _ _⟩

theorem rely_exec {i j : ℕ} (h : i ≠ j) (e : Op) (c : Choice) (s : State) :
    Rely i s (exec j e c s).2 := ⟨exec_own_of_ne h e c s, (exec_now j e c s).ge⟩

/-- Whatever an operation does, the events of the process that come after `base` stay in `L`. -/
def Keeps (i : ℕ) (base : List Event) (L : List Event → Prop) (e : Op) (s : State) : Prop :=
  ∀ c, ∃ evs, (exec i e c s).2.own i = evs ++ base ∧ L evs

/-- How a program ends: with a value, or with an exception. -/
def Outcome {α : Type} (E : List Event → Prop) (post : α → List Event → Time → Prop)
    (evs : List Event) (t : Time) : Except Fault α → Prop
  | .ok a => post a evs t
  | .error _ => E evs

/-- The end of a program: its events, its time, and what holds of its value. -/
def Ends {α : Type} (i : ℕ) (base : List Event) (L E : List Event → Prop) (T : Time)
    (post : α → List Event → Time → Prop) (x : Except Fault α) (s : State) : Prop :=
  ∃ evs, s.own i = evs ++ base ∧ L evs ∧ T ≤ s.now ∧ Outcome E post evs s.now x

/-- The triple: from `evs` and `T`, the program keeps `L`, and ends in `E` or with `post`. -/
def Meets {α : Type} (i : ℕ) (base : List Event) (L E : List Event → Prop) (evs : List Event)
    (T : Time) (p : Action α) (post : α → List Event → Time → Prop) : Prop :=
  L evs → ∀ s : State, s.own i = evs ++ base → T ≤ s.now →
    machine.Safe i (Rely i) (Keeps i base L) (Ends i base L E T post) p.run s

section Rules

variable {α β : Type} {i : ℕ} {base evs : List Event} {L E : List Event → Prop} {T : Time}

theorem meets_pure {post : α → List Event → Time → Prop} {a : α}
    (h : ∀ t, T ≤ t → post a evs t) : Meets i base L E evs T (pure a) post := by
  intro hL s hs hT
  exact Machine.safe_done ⟨evs, hs, hL, hT, h _ hT⟩

theorem meets_throw {post : α → List Event → Time → Prop} {f : Fault} (hE : E evs) :
    Meets i base L E evs T (throw f) post := by
  intro hL s hs hT
  exact Machine.safe_done ⟨evs, hs, hL, hT, hE⟩

theorem meets_mono {post post' : α → List Event → Time → Prop} {p : Action α}
    (hpost : ∀ a evs t, post a evs t → post' a evs t) (h : Meets i base L E evs T p post) :
    Meets i base L E evs T p post' := by
  intro hL s hs hT
  refine Machine.safe_mono ?_ (h hL s hs hT)
  rintro x s' ⟨evs', hs', hL', hT', hx⟩
  refine ⟨evs', hs', hL', hT', ?_⟩
  cases x with
  | ok a => exact hpost a _ _ hx
  | error f => exact hx

/-- The rule of sequential composition. -/
theorem meets_bind {post : β → List Event → Time → Prop} {p : Action α} {f : α → Action β}
    (h : Meets i base L E evs T p fun a evs' t => Meets i base L E evs' t (f a) post) :
    Meets i base L E evs T (p >>= f) post := by
  intro hL s hs hT
  rw [ExceptT.run_bind]
  refine Machine.safe_bind ?_ (h hL s hs hT)
  rintro x s' ⟨evs', hs', hL', hT', hx⟩
  cases x with
  | ok a =>
    refine Machine.safe_mono ?_ (hx hL' s' hs' (le_refl _))
    rintro y s'' ⟨evs'', hs'', hL'', hT'', hy⟩
    exact ⟨evs'', hs'', hL'', hT'.trans hT'', hy⟩
  | error f => exact Machine.safe_done ⟨evs', hs', hL', hT', hx⟩

/-- The rule of an operation, by what it does when it is carried out and when it throws. -/
theorem meets_call {e : Op} {post : e.Val → List Event → Time → Prop}
    (h : L evs → ∀ s c, s.own i = evs ++ base → T ≤ s.now →
      ∃ evs', (exec i e c s).2.own i = evs' ++ base ∧ L evs' ∧
        Outcome E post evs' s.now (exec i e c s).1) :
    Meets i base L E evs T (call e) post := by
  intro hL s hs hT
  have h := h hL
  apply Machine.safe_perform
  intro s₁ hr
  have hs₁ : s₁.own i = evs ++ base := hr.1.trans hs
  have hT₁ : T ≤ s₁.now := hT.trans hr.2
  refine ⟨fun c => ?_, fun c => ?_⟩
  · obtain ⟨evs', hown, hL', -⟩ := h s₁ c hs₁ hT₁
    exact ⟨evs', hown, hL'⟩
  · obtain ⟨evs', hown, hL', hx⟩ := h s₁ c hs₁ hT₁
    have hnow : (exec i e c s₁).2.now = s₁.now := exec_now i e c s₁
    refine ⟨evs', hown, hL', hnow ▸ hT₁, ?_⟩
    rw [← hnow] at hx
    exact hx

/-! ## Operations that leave no event -/

/-- The operation changes nothing, and throws when it is not carried out. -/
structure Silent (i : ℕ) (e : Op) : Prop where
  exec_eq : ∀ c s, (exec i e c s).2 = s
  throws : e.Throws

theorem meets_silent {e : Op} {post : e.Val → List Event → Time → Prop} (he : Silent i e)
    (hE : E evs) (h : ∀ v s, T ≤ s.now → (e.run i s).1 = .ok v → post v evs s.now) :
    Meets i base L E evs T (call e) post := by
  refine meets_call fun hL s c hs hT => ⟨evs, by rw [he.exec_eq c s, hs], hL, ?_⟩
  cases hx : (exec i e c s).1 with
  | ok v =>
    cases c with
    | ok => exact h v s hT hx
    | throws written =>
      rw [exec, he.throws written] at hx
      cases hx
  | error f => exact hE

theorem silent_countEmail (email : String) : Silent i (.countEmail email) :=
  ⟨fun c s => by cases c <;> rfl, fun _ => rfl⟩

theorem silent_executeUsers (ws : List UserWrite) : Silent i (.executeUsers ws) :=
  ⟨fun c s => by cases c <;> rfl, fun _ => rfl⟩

theorem silent_executeCertificates (ws : List CertificateWrite) :
    Silent i (.executeCertificates ws) :=
  ⟨fun c s => by cases c <;> rfl, fun _ => rfl⟩

theorem silent_anyPrivateKey (uid : String) : Silent i (.anyPrivateKey uid) :=
  ⟨fun c s => by cases c <;> rfl, fun _ => rfl⟩

theorem silent_executePrivateKeys (ws : List PrivateKeyWrite) :
    Silent i (.executePrivateKeys ws) :=
  ⟨fun c s => by cases c <;> rfl, fun _ => rfl⟩

theorem silent_clock : Silent i .clock :=
  ⟨fun c s => by cases c <;> rfl, fun _ => rfl⟩

theorem silent_mayThrow (site : Site) : Silent i (.mayThrow site) :=
  ⟨fun c s => by cases c <;> rfl, fun _ => rfl⟩

theorem meets_clock {post : Time → List Event → Time → Prop} (hE : E evs)
    (h : ∀ t, T ≤ t → post t evs t) : Meets i base L E evs T clock post := by
  apply meets_silent silent_clock hE
  intro v s hT hv
  obtain rfl := Except.ok.inj hv
  exact h _ hT

/-! ## Operations that leave an event -/

/-- The operation leaves the event `ev` when it is carried out, and nothing when it throws. -/
structure Records (i : ℕ) (e : Op) (ev : e.Val → Time → Event) : Prop where
  pid : ∀ v t, (ev v t).pid = i
  run : ∀ s, (∃ v, (e.run i s).1 = .ok v ∧ (e.run i s).2.history = ev v s.now :: s.history) ∨
    ∃ f, (e.run i s).1 = .error f ∧ (e.run i s).2 = s
  leftBehind : ∀ s written, e.leftBehind i written s = s
  throws : e.Throws

theorem own_cons {s s' : State} {e : Event} (h : s'.history = e :: s.history) (he : e.pid = i) :
    s'.own i = e :: s.own i := by
  rw [State.own, h, List.filter_cons_of_pos (by simpa using he)]
  rfl

theorem meets_records {e : Op} {ev : e.Val → Time → Event}
    {post : e.Val → List Event → Time → Prop} (he : Records i e ev) (hE : E evs)
    (h : ∀ v s, T ≤ s.now → (e.run i s).1 = .ok v →
      L (ev v s.now :: evs) ∧ post v (ev v s.now :: evs) s.now) :
    Meets i base L E evs T (call e) post := by
  apply meets_call
  intro hL s c hs hT
  cases c with
  | ok =>
    rcases he.run s with ⟨v, hv, hhist⟩ | ⟨f, hf, hsame⟩
    · obtain ⟨hL', hpost⟩ := h v s hT hv
      have hown := own_cons hhist (he.pid v s.now)
      rw [hs] at hown
      refine ⟨ev v s.now :: evs, hown, hL', ?_⟩
      rw [exec, hv]
      exact hpost
    · refine ⟨evs, ?_, hL, ?_⟩
      · rw [exec, hsame, hs]
      · rw [exec, hf]
        exact hE
  | throws written =>
    refine ⟨evs, ?_, hL, ?_⟩
    · rw [exec, he.leftBehind s written, hs]
    · rw [exec, he.throws written]
      exact hE

theorem meets_findUser {uid : String} {post : Option User → List Event → Time → Prop}
    (hE : E evs)
    (h : ∀ user t, T ≤ t → IsRowOf uid user →
      L (.userRead i uid user :: evs) ∧ post user (.userRead i uid user :: evs) t) :
    Meets i base L E evs T (findUser uid) post := by
  have he : Records i (.findUser uid) fun user _ => .userRead i uid user :=
    ⟨fun _ _ => rfl, fun _ => .inl ⟨_, rfl, rfl⟩, fun _ _ => rfl, fun _ => rfl⟩
  refine meets_records he hE fun user s hT hv => h user s.now hT fun u hu => ?_
  obtain rfl := Except.ok.inj hv
  exact (Table.find?_eq_some_iff.1 hu).2

theorem meets_commitUsers {ws : List UserWrite} {post : Unit → List Event → Time → Prop}
    (hE : E evs)
    (h : ∀ t, T ≤ t →
      L (.usersCommitted i ws :: evs) ∧ post () (.usersCommitted i ws :: evs) t) :
    Meets i base L E evs T (commitUsers ws) post := by
  have he : Records i (.commitUsers ws) fun _ _ => .usersCommitted i ws := by
    refine ⟨fun _ _ => rfl, fun s => ?_, fun _ _ => rfl, fun _ => rfl⟩
    simp only [Op.run]
    split
    · exact .inl ⟨(), rfl, rfl⟩
    · exact .inr ⟨_, rfl, rfl⟩
  exact meets_records he hE fun _ s hT _ => h s.now hT

theorem meets_readCertificates {post : Table PublicCertificate → List Event → Time → Prop}
    (hE : E evs)
    (h : ∀ t now, T ≤ now →
      L (.certificatesRead i t now :: evs) ∧ post t (.certificatesRead i t now :: evs) now) :
    Meets i base L E evs T readCertificates post := by
  have he : Records i .readCertificates fun t now => .certificatesRead i t now :=
    ⟨fun _ _ => rfl, fun _ => .inl ⟨_, rfl, rfl⟩, fun _ _ => rfl, fun _ => rfl⟩
  exact meets_records he hE fun t s hT _ => h t s.now hT

theorem meets_commitCertificates {ws : List CertificateWrite}
    {post : Unit → List Event → Time → Prop}
    (hE : E evs)
    (h : ∀ t, T ≤ t → L (.certificatesCommitted i ws t :: evs) ∧
      post () (.certificatesCommitted i ws t :: evs) t) :
    Meets i base L E evs T (commitCertificates ws) post := by
  have he : Records i (.commitCertificates ws) fun _ t => .certificatesCommitted i ws t := by
    refine ⟨fun _ _ => rfl, fun s => ?_, fun _ _ => rfl, fun _ => rfl⟩
    simp only [Op.run]
    split
    · exact .inl ⟨(), rfl, rfl⟩
    · exact .inr ⟨_, rfl, rfl⟩
  exact meets_records he hE fun _ s hT _ => h s.now hT

theorem meets_findPrivateKey {uid : String} {post : Option PrivateKey → List Event → Time → Prop}
    (hE : E evs)
    (h : ∀ key t, T ≤ t →
      L (.privateKeyRead i uid key :: evs) ∧ post key (.privateKeyRead i uid key :: evs) t) :
    Meets i base L E evs T (findPrivateKey uid) post := by
  have he : Records i (.findPrivateKey uid) fun key _ => .privateKeyRead i uid key :=
    ⟨fun _ _ => rfl, fun _ => .inl ⟨_, rfl, rfl⟩, fun _ _ => rfl, fun _ => rfl⟩
  exact meets_records he hE fun key s hT _ => h key s.now hT

theorem meets_commitPrivateKeys {ws : List PrivateKeyWrite}
    {post : Unit → List Event → Time → Prop}
    (hE : E evs)
    (h : ∀ t, T ≤ t →
      L (.privateKeysCommitted i ws :: evs) ∧ post () (.privateKeysCommitted i ws :: evs) t) :
    Meets i base L E evs T (commitPrivateKeys ws) post := by
  have he : Records i (.commitPrivateKeys ws) fun _ _ => .privateKeysCommitted i ws := by
    refine ⟨fun _ _ => rfl, fun s => ?_, fun _ _ => rfl, fun _ => rfl⟩
    simp only [Op.run]
    split
    · exact .inl ⟨(), rfl, rfl⟩
    · exact .inr ⟨_, rfl, rfl⟩
  exact meets_records he hE fun _ s hT _ => h s.now hT

theorem meets_generateKey {alg : EncryptionAlgorithms} {keySize : ℕ}
    {post : AsymmetricAlgorithm → List Event → Time → Prop}
    (hE : E evs)
    (h : ∀ key t, T ≤ t →
      L (.keyGenerated i key :: evs) ∧ post key (.keyGenerated i key :: evs) t) :
    Meets i base L E evs T (generateKey alg keySize) post := by
  have he : Records i (.generateKey alg keySize) fun key _ => .keyGenerated i key :=
    ⟨fun _ _ => rfl, fun _ => .inl ⟨_, rfl, rfl⟩, fun _ _ => rfl, fun _ => rfl⟩
  exact meets_records he hE fun key s hT _ => h key s.now hT

/-- The answer, or one of `nginx` in its place. -/
theorem meets_receive {r : Reply} {post : Reply → List Event → Time → Prop}
    (hE : E evs)
    (h : ∀ r', r' = r ∨ r' = .badGateway → ∀ t, T ≤ t →
      L (.received i r' :: evs) ∧ post r' (.received i r' :: evs) t) :
    Meets i base L E evs T (receive r) post := by
  apply meets_call
  intro hL s c hs hT
  have hown : ∀ r', ((Op.receive r').run i s).2.own i = .received i r' :: evs ++ base := by
    intro r'
    have hcons : ((Op.receive r').run i s).2.own i = .received i r' :: s.own i :=
      own_cons (s := s) rfl rfl
    rw [hs] at hcons
    exact hcons
  cases c with
  | ok => exact ⟨.received i r :: evs, hown r, h r (Or.inl rfl) _ hT⟩
  | throws written =>
    cases written with
    | none => exact ⟨evs, hs, hL, hE⟩
    | some n =>
      exact ⟨.received i .badGateway :: evs, hown _, h .badGateway (Or.inr rfl) _ hT⟩

theorem meets_cacheTryGet {key : String} {post : Option Pkcs12Archive → List Event → Time → Prop}
    (hE : E evs)
    (h : ∀ archive t, T ≤ t → L (.cacheRead i key archive t :: evs) ∧
      post archive (.cacheRead i key archive t :: evs) t) :
    Meets i base L E evs T (cacheTryGet key) post := by
  have he : Records i (.cacheTryGet key) fun archive t => .cacheRead i key archive t :=
    ⟨fun _ _ => rfl, fun _ => .inl ⟨_, rfl, rfl⟩, fun _ _ => rfl, fun _ => rfl⟩
  exact meets_records he hE fun archive s hT _ => h archive s.now hT

theorem meets_cacheSet {key : String} {value : Pkcs12Archive} {expires : Time}
    {post : Unit → List Event → Time → Prop}
    (hE : E evs)
    (h : ∀ t, T ≤ t → L (.cacheSet i key value expires t :: evs) ∧
      post () (.cacheSet i key value expires t :: evs) t) :
    Meets i base L E evs T (cacheSet key value expires) post := by
  have he : Records i (.cacheSet key value expires) fun _ t => .cacheSet i key value expires t :=
    ⟨fun _ _ => rfl, fun _ => .inl ⟨_, rfl, rfl⟩, fun _ _ => rfl, fun _ => rfl⟩
  exact meets_records he hE fun _ s hT _ => h s.now hT

/-- A file write that throws may leave an initial part of the bytes behind. -/
theorem meets_writeAllBytes {path : String} {bytes : List UInt8}
    {post : Unit → List Event → Time → Prop} (hE : E evs)
    (hpart : ∀ n, L (.fileWritten i path (bytes.take n) :: evs) ∧
      E (.fileWritten i path (bytes.take n) :: evs))
    (h : ∀ t, T ≤ t → post () (.fileWritten i path bytes :: evs) t) :
    Meets i base L E evs T (writeAllBytes path bytes) post := by
  apply meets_call
  intro hL s c hs hT
  have hown : ∀ bytes', ((Op.writeAllBytes path bytes').run i s).2.own i =
      .fileWritten i path bytes' :: evs ++ base := by
    intro bytes'
    have hcons : ((Op.writeAllBytes path bytes').run i s).2.own i =
        .fileWritten i path bytes' :: s.own i := own_cons (s := s) rfl rfl
    rw [hs] at hcons
    exact hcons
  cases c with
  | ok =>
    refine ⟨.fileWritten i path bytes :: evs, hown bytes, ?_, h _ hT⟩
    simpa using (hpart bytes.length).1
  | throws written =>
    cases written with
    | none => exact ⟨evs, hs, hL, hE⟩
    | some n =>
      exact ⟨.fileWritten i path (bytes.take n) :: evs, hown _, (hpart n).1, (hpart n).2⟩

/-! ## Calls -/

/-- A triple about a part of the program, as one about the whole: its events come after `evs`, and
its language is the part of `L` that begins there. -/
theorem meets_part (evs : List Event) (L' E' : List Event → Prop) {evs₀ : List Event} {p : Action α}
    {post : α → List Event → Time → Prop}
    (h : Meets i (evs ++ base) L' E' evs₀ T p fun a evs' t => L' evs' → post a (evs' ++ evs) t)
    (h₀ : L' evs₀) (hL' : ∀ evs', L' evs' → L (evs' ++ evs))
    (hE' : ∀ evs', E' evs' → E (evs' ++ evs)) :
    Meets i base L E (evs₀ ++ evs) T p post := by
  intro _ s hs hT
  rw [List.append_assoc] at hs
  refine Machine.safe_contract_mono ?_ (Machine.safe_mono ?_ (h h₀ s hs hT))
  · intro e s' hkeeps c
    obtain ⟨evs', hown, hevs'⟩ := hkeeps c
    exact ⟨evs' ++ evs, by rw [hown, List.append_assoc], hL' evs' hevs'⟩
  · rintro x s' ⟨evs', hown, hevs', hT', hx⟩
    refine ⟨evs' ++ evs, by rw [hown, List.append_assoc], hL' evs' hevs', hT', ?_⟩
    cases x with
    | ok a => exact hx hevs'
    | error f => exact hE' evs' hx

end Rules

end IMoviesCA
