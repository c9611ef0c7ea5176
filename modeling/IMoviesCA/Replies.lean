import IMoviesCA.Run

/-!
# What a request may be answered with

`Gives Q p` says that the value of an action meets `Q` whatever its operations return, with a rule for
each way to put actions together.  From it come the answers of every endpoint of the CA server
(`ApiRequest.Replies`) and of every action of the web server (`WebRequest.Replies`); both may also
answer with status 500 (`replies_of_reaches`).
-/

namespace IMoviesCA

open IssueController CADBModifier UserDBAuthenticator

/-! ## Values of an action -/

section Gives

variable {α β : Type} {Q : α → Prop}

/-- Whatever the operations return, the action throws or its value meets `Q`. -/
def Gives (Q : α → Prop) (p : Action α) : Prop :=
  p.run.Returns fun x => ∀ a, x = .ok a → Q a

theorem gives_pure {a : α} (h : Q a) : Gives Q (pure a) := by
  rintro _ ⟨⟩
  exact h

theorem gives_throw {f : Fault} : Gives Q (throw f) := by
  rintro _ ⟨⟩

/-- The value of a sequence is that of its last action. -/
theorem gives_bind {Q : β → Prop} {f : α → Action β} (h : ∀ a, Gives Q (f a)) (p : Action α) :
    Gives Q (p >>= f) := by
  apply Program.returns_bind
  intro x
  cases x with
  | ok a => exact h a
  | error e => rintro _ ⟨⟩

theorem gives_ite {p : Prop} [Decidable p] {a b : Action α} (ha : Gives Q a) (hb : Gives Q b) :
    Gives Q (if p then a else b) := by
  split
  · exact ha
  · exact hb

/-- The answer of an action is its value or status 500. -/
theorem returns_answer {Q : Reply → Prop} {p : Action Reply} (h : Gives Q p) :
    (answer p).Returns fun reply => reply = .serverError ∨ Q reply := by
  have hanswer : ∀ q : Program Op Op.Res (Except Fault Reply),
      q.Returns (fun x => ∀ a, x = .ok a → Q a) →
      (answer (ExceptT.mk q)).Returns fun reply => reply = .serverError ∨ Q reply := by
    intro q
    induction q with
    | done x =>
      intro hx
      cases x with
      | ok a => exact Or.inr (hx a rfl)
      | error e => exact Or.inl rfl
    | op e k ih => exact fun hk r => ih r (hk r)
  exact hanswer p.run h

end Gives

/-! ## The CA server -/

variable {P : Platform} {s₀ : State} {c : Configuration}

/-- The answers of an endpoint of the CA server. -/
def ApiRequest.Replies : ApiRequest → Reply → Prop
  | .issue _, reply => (∃ archive, reply = .ok archive) ∨ reply = .badRequest none ∨
      reply = .badRequest (some "Invalid cipher suite.") ∨ reply = .unauthorized
  | .revoke _, reply => reply = .noContent ∨ reply = .badRequest none
  | .changePassword _, reply => reply = .noContent ∨ reply = .badRequest none ∨ reply = .unauthorized
  | .downloadPrivateKey _, reply =>
      (∃ archive, reply = .ok archive) ∨ reply = .badRequest none ∨ reply = .unauthorized
  | .getCRL, reply => ∃ crl, reply = .crl crl
  | .getCipherSuites, reply => reply = .cipherSuites CAConfig.cipherSuites

theorem gives_apiController {Q : Reply → Prop} {valid : Bool} {p : Action Reply}
    (hbad : Q (.badRequest none)) (h : Gives Q p) : Gives Q (apiController valid p) :=
  gives_ite h (gives_pure hbad)

theorem gives_issueCertificate (P : Platform) (machineName : String) (r : CertRequest) :
    Gives (ApiRequest.Replies (.issue r)) (issueCertificate P machineName r) := by
  unfold issueCertificate
  apply gives_ite
  · exact gives_throw
  · apply gives_ite
    · exact gives_pure (Or.inr (Or.inr (Or.inl rfl)))
    · refine gives_bind (fun user => ?_) _
      cases user with
      | none => exact gives_pure (Or.inr (Or.inr (Or.inr rfl)))
      | some user =>
        refine gives_bind (fun privKey => ?_) _
        cases certificateRequest P user privKey r.requestedCipherSuite with
        | none => exact gives_throw
        | some req =>
          refine gives_bind (fun userCert => ?_) _
          refine gives_bind (fun _ => gives_bind (fun _ => gives_bind (fun _ => ?_) _) _) _
          exact gives_pure (Or.inl ⟨_, rfl⟩)

theorem gives_revokeCertificate (r : RevokeRequest) :
    Gives (ApiRequest.Replies (.revoke r)) (RevokeController.revokeCertificate r) := by
  refine gives_bind (fun user => ?_) _
  cases user with
  | none => exact gives_pure (Or.inr rfl)
  | some user =>
    refine gives_bind (fun _ => gives_pure ?_) _
    exact Or.inl rfl

theorem gives_changePassword (P : Platform) (r : PasswordChangeRequest) :
    Gives (ApiRequest.Replies (.changePassword r)) (ChangePasswordController.changePassword P r) := by
  refine gives_bind (fun _ => gives_bind (fun user => ?_) _) _
  cases user with
  | none =>
    refine gives_bind (fun _ => gives_pure ?_) _
    exact Or.inr (Or.inr rfl)
  | some user =>
    refine gives_bind (fun changed => gives_bind (fun _ => gives_pure ?_) _) _
    cases changed.1
    · exact Or.inr (Or.inl rfl)
    · exact Or.inl rfl

theorem gives_downloadPrivateKey (P : Platform) (r : DownloadPrivateKeyRequest) :
    Gives (ApiRequest.Replies (.downloadPrivateKey r))
      (DownloadPrivateKeyController.downloadPrivateKey P r) := by
  refine gives_bind (fun user => ?_) _
  cases user with
  | none => exact gives_pure (Or.inr (Or.inr rfl))
  | some user =>
    refine gives_bind (fun key => ?_) _
    cases key with
    | none => exact gives_pure (Or.inr (Or.inl rfl))
    | some key => exact gives_pure (Or.inl ⟨_, rfl⟩)

theorem gives_api (P : Platform) (machineName : String) (r : ApiRequest) :
    Gives r.Replies (api P machineName r) := by
  cases r with
  | issue r => exact gives_apiController (Or.inr (Or.inl rfl)) (gives_issueCertificate _ _ r)
  | revoke r => exact gives_apiController (Or.inr rfl) (gives_revokeCertificate r)
  | changePassword r => exact gives_apiController (Or.inr (Or.inl rfl)) (gives_changePassword P r)
  | downloadPrivateKey r =>
    exact gives_apiController (Or.inr (Or.inl rfl)) (gives_downloadPrivateKey P r)
  | getCRL => exact gives_bind (fun _ => gives_bind (fun _ => gives_pure ⟨_, rfl⟩) _) _
  | getCipherSuites => exact gives_pure rfl

/-! ## The web server -/

/-- The answers of an action of the web server. -/
def WebRequest.Replies : WebRequest → Reply → Prop
  | .update _, reply => reply = .view ∨
      reply = .redirect true "Account information updated successfully." ∨
      reply = .redirect false "Updating account information failed."
  | .updatePassword _, reply => reply = .view ∨
      reply = .redirect true "Password updated successfully." ∨
      reply = .redirect false "Updating password failed."
  | .downloadGet, reply =>
      (∃ archive, reply = .file archive) ∨ reply = .redirect false "Certificate download failed."
  | .download _, reply => (∃ data, reply = .certificates data) ∨
      reply = .redirect true "Certificate downloaded." ∨
      reply = .redirect false "Certificate download failed."
  | .new _, reply => (∃ data, reply = .certificates data) ∨
      reply = .redirect true "Certificate issued successfully." ∨
      reply = .redirect false "New certificate request failed."
  | .revoke, reply => reply = .redirect true "Certificate revoked successfully." ∨
      reply = .redirect false "Revoking certificate failed."
  | .certIndex, reply => ∃ data, reply = .certificates data
  | .adminIndex, reply => ∃ stats, reply = .adminStats stats

theorem gives_certIndex {Q : Reply → Prop} (hQ : ∀ data, Q (.certificates data)) (uid : String) :
    Gives Q (CertController.index P uid) :=
  gives_bind (fun data => gives_pure (hQ data)) _

theorem gives_web (P : Platform) (machineName uid : String) (w : WebRequest) :
    Gives w.Replies (web P machineName uid w) := by
  cases w with
  | update d =>
    refine gives_ite (gives_pure (Or.inl rfl)) (gives_bind (fun user => ?_) _)
    cases user with
    | none => exact gives_pure (Or.inr (Or.inr rfl))
    | some user =>
      refine gives_bind (fun count => ?_) _
      apply gives_ite
      · refine gives_bind (fun _ => gives_bind (fun _ => gives_pure ?_) _) _
        exact Or.inr (Or.inl rfl)
      · exact gives_pure (Or.inr (Or.inr rfl))
  | updatePassword d =>
    refine gives_ite (gives_pure (Or.inl rfl)) (gives_bind (fun changed => gives_pure ?_) _)
    cases changed
    · exact Or.inr (Or.inr rfl)
    · exact Or.inr (Or.inl rfl)
  | downloadGet =>
    refine gives_bind (fun archive => ?_) _
    cases archive with
    | none => exact gives_pure (Or.inr rfl)
    | some archive => exact gives_pure (Or.inl ⟨_, rfl⟩)
  | download d =>
    refine gives_ite (gives_certIndex (fun _ => Or.inl ⟨_, rfl⟩) uid) (gives_bind (fun archive => ?_) _)
    cases archive with
    | none => exact gives_pure (Or.inr (Or.inr rfl))
    | some archive =>
      refine gives_bind (fun _ => gives_bind (fun _ => gives_pure ?_) _) _
      exact Or.inr (Or.inl rfl)
  | new d =>
    refine gives_ite (gives_certIndex (fun _ => Or.inl ⟨_, rfl⟩) uid) (gives_bind (fun archive => ?_) _)
    cases archive with
    | none => exact gives_pure (Or.inr (Or.inr rfl))
    | some archive =>
      refine gives_bind (fun _ => gives_bind (fun _ => gives_pure ?_) _) _
      exact Or.inr (Or.inl rfl)
  | revoke =>
    refine gives_bind (fun success => gives_pure ?_) _
    cases success
    · exact Or.inr rfl
    · exact Or.inl rfl
  | certIndex => exact gives_certIndex (fun _ => ⟨_, rfl⟩) uid
  | adminIndex =>
    refine gives_bind (fun _ => gives_bind (fun _ => gives_bind (fun _ => gives_bind (fun _ =>
      gives_bind (fun _ => gives_pure ⟨_, rfl⟩) _) _) _) _) _

/-! ## Every run -/

/-- The answers of the action of a request. -/
def Request.Replies : Request → Reply → Prop
  | .api _ r => r.Replies
  | .web _ _ w => w.Replies

/-- A request that has ended was answered with status 500 or with one of the answers of its action. -/
theorem replies_of_reaches (h : (system P).Reaches (.initial s₀) c) {i : ℕ} {req : Request}
    {reply : Reply} (hdone : c.procs i = some (req, .done reply)) :
    reply = .serverError ∨ req.Replies reply := by
  refine System.returns_of_reaches (Q := fun reply => reply = .serverError ∨ req.Replies reply) ?_ h
    hdone
  apply returns_answer
  cases req with
  | api m r => exact gives_api P m r
  | web m uid w => exact gives_web P m uid w

end IMoviesCA
