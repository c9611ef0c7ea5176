import IMoviesCA.Lib.Watch
import IMoviesCA.EmailAddress

/-!
# Different e-mail addresses

`AccountController.Update` counts the rows with the new address, calls the CA, and then saves.  The
column has no unique constraint, and no transaction spans the count and the save.  The addresses
stay pairwise different along a run if and only if every save that is carried out still finds the
new address free (`uniqueEmails_along_iff`); and it does when no form of that user, and none with that
address, was saved since its request arrived (`savesFreeEmail_of_noSaveSince`).
-/

namespace IMoviesCA

open AccountController UserDBAuthenticator

variable {P : Platform} {s₀ : State} {c c' : Configuration}

/-! ## Tables -/

/-- The e-mail addresses are pairwise different. -/
def UniqueEmails (t : Table User) : Prop := (t.rows.map User.email).Nodup

instance (t : Table User) : Decidable (UniqueEmails t) := by
  unfold UniqueEmails
  infer_instance

/-- The address of a user. -/
def emailIn (t : Table User) (uid : String) : Option String := (t.find? uid).map User.email

theorem uniqueEmails_iff {t : Table User} : UniqueEmails t ↔ ∀ uid uid' email,
    emailIn t uid = some email → emailIn t uid' = some email → uid = uid' := by
  have hrows : t.rows.Nodup := List.Nodup.of_map _ t.nodup
  unfold UniqueEmails
  rw [List.nodup_map_iff_inj_on hrows]
  constructor
  · intro hinj uid uid' email h h'
    obtain ⟨u, hfind, rfl⟩ := Option.map_eq_some_iff.1 h
    obtain ⟨v, hfind', hemail⟩ := Option.map_eq_some_iff.1 h'
    obtain ⟨hu, rfl⟩ := Table.find?_eq_some_iff.1 hfind
    obtain ⟨hv, rfl⟩ := Table.find?_eq_some_iff.1 hfind'
    rw [hinj v hv u hu hemail]
  · intro hunique u hu v hv hemail
    apply Table.eq_of_key_eq hu hv
    apply hunique _ _ u.email
    · rw [emailIn, Table.find?_of_mem hu]
      rfl
    · rw [emailIn, Table.find?_of_mem hv, Option.map_some, hemail]

/-- Tables with the same addresses. -/
theorem uniqueEmails_congr {t t' : Table User} (h : ∀ uid, emailIn t' uid = emailIn t uid) :
    UniqueEmails t' ↔ UniqueEmails t := by
  simp only [uniqueEmails_iff, h]

/-- The addresses are still different after a save if and only if no other user had the new one. -/
theorem uniqueEmails_saved_iff {t t' : Table User} {user : User} {d : UserDetails}
    (h : t.commit (savedDetails user d) = some t') (ht : UniqueEmails t) :
    UniqueEmails t' ↔ ∀ uid, emailIn t uid = some d.email → uid = user.id := by
  have hemail : ∀ uid, emailIn t' uid = if user.id = uid then some d.email else emailIn t uid :=
    email_of_saved h
  rw [uniqueEmails_iff] at ht ⊢
  constructor
  · intro hunique uid huid
    by_contra hne
    refine hne (hunique uid user.id d.email ?_ ?_)
    · rw [hemail, if_neg (Ne.symm hne)]
      exact huid
    · rw [hemail, if_pos rfl]
  · intro hfree uid uid' email hu hu'
    rw [hemail] at hu hu'
    split_ifs at hu with hid
    · obtain rfl := Option.some.inj hu
      split_ifs at hu' with hid'
      · exact hid.symm.trans hid'
      · exact absurd (hfree uid' hu').symm hid'
    · split_ifs at hu' with hid'
      · obtain rfl := Option.some.inj hu'
        exact absurd (hfree uid hu).symm hid
      · exact ht uid uid' email hu hu'

/-! ## Runs -/

/-- Process `i` is about to save the form `d` of the user `uid`, and the save will be carried
out. -/
def Saves (a : Act Request Choice ℕ) (c : Configuration) (uid : String) (d : UserDetails) : Prop :=
  ∃ i m ws k, a = .step i .ok ∧
    c.procs i = some (.web m uid (.update d), .op (.commitUsers ws) k) ∧
    (c.shared.users.commit ws).isSome = true

/-- A save that is carried out finds the new address free, or that of the user. -/
def SavesFreeEmail (a : Act Request Choice ℕ) (c _ : Configuration) : Prop :=
  ∀ uid d, Saves a c uid d → ∀ uid', c.shared.emailOf uid' = some d.email → uid' = uid

/-- What a save writes. -/
theorem savedDetails_of_saves (h₀ : s₀.history = []) (hreach : (system P).Reaches (.initial s₀) c)
    {a : Act Request Choice ℕ} (ha : (system P).step a c = some c') {uid : String} {d : UserDetails}
    (h : Saves a c uid d) : ∃ i user, user.id = uid ∧
      c.shared.users.commit (savedDetails user d) = some c'.shared.users ∧
      c'.shared.history = .usersCommitted i (savedDetails user d) :: c.shared.history := by
  obtain ⟨i, m, ws, k, rfl, hk, hcommit⟩ := h
  obtain ⟨t, ht⟩ := Option.isSome_iff_exists.1 hcommit
  have hstep : (system P).step (.step i .ok) c = some _ := System.step_op hk
  rw [ha] at hstep
  obtain rfl := Option.some.inj hstep
  have hexec : ((system P).exec i (.commitUsers ws) .ok c.shared).2 =
      { c.shared with users := t }.record (.usersCommitted i ws) :=
    congrArg Prod.snd (Op.run_commitUsers ht)
  dsimp only
  rw [hexec]
  have hreq : c.request i = some (.web m uid (.update d)) := by simp [Config.request, hk]
  have htrace : Trace P i (.web m uid (.update d)) (((system P).exec i (.commitUsers ws) .ok
      c.shared).2.own i) :=
    Logic.contract_of_reaches (start_of_fresh h₀) hreach hk .ok
  have hown : ({ c.shared with users := t }.record (.usersCommitted i ws)).own i =
      .usersCommitted i ws :: c.shared.own i := (Occurs.usersCommitted ht).own
  rw [hexec, hown] at htrace
  obtain ⟨user, part, reply, hid, rfl, -⟩ := own_of_saved htrace
  exact ⟨i, user, hid, ht, rfl⟩

/-- Every other action leaves the addresses as they are. -/
theorem emailIn_of_step (h₀ : s₀.history = []) (hreach : (system P).Reaches (.initial s₀) c)
    {a : Act Request Choice ℕ} (ha : (system P).step a c = some c')
    (hnot : ∀ uid d, ¬ Saves a c uid d) (uid : String) :
    emailIn c'.shared.users uid = emailIn c.shared.users uid := by
  rcases moves_of_step h₀ hreach ha with hs | ⟨d, hs⟩ | ⟨req, e, ch, rfl, hm⟩
  · rw [hs]
  · rw [hs]
    rfl
  · have hocc := hm.occurs
    generalize hs' : c'.shared = s' at hocc
    generalize hs : c.shared = s at hocc
    cases hocc with
    | @usersCommitted i ws _ t hc =>
      subst hs
      rcases mem_trace hm.trace List.mem_cons_self with ⟨m, r, evs, -, htrace, -, he⟩ | hweb
      · obtain ⟨-, r', -, rfl | ⟨user, -, rfl, -⟩⟩ := usersCommitted_cases htrace he
        · obtain rfl : c.shared.users = t := Option.some.inj hc
          rfl
        · exact email_of_passwordHashChange hc uid
      · cases hweb with
        | @saved m uid' d user hid hread =>
          exfalso
          obtain ⟨rfl, k, hk⟩ := op_of_step ha hm.occurs rfl hm.request
          exact hnot uid' d ⟨_, m, _, k, rfl, hk, by rw [hc]; rfl⟩
    | _ => rfl

/-- An action keeps the addresses different if and only if it does not save one that is taken. -/
theorem uniqueEmails_step_iff (h₀ : s₀.history = []) (hreach : (system P).Reaches (.initial s₀) c)
    {a : Act Request Choice ℕ} (ha : (system P).step a c = some c')
    (hunique : UniqueEmails c.shared.users) :
    UniqueEmails c'.shared.users ↔ SavesFreeEmail a c c' := by
  by_cases hsaves : ∃ uid d, Saves a c uid d
  · obtain ⟨uid, d, hsave⟩ := hsaves
    obtain ⟨-, user, rfl, hcommit, -⟩ := savedDetails_of_saves h₀ hreach ha hsave
    rw [uniqueEmails_saved_iff hcommit hunique]
    constructor
    · intro hfree uid' d' hsave' uid'' hemail
      obtain ⟨i, m, ws, k, rfl, hk, -⟩ := hsave
      obtain ⟨j, m', ws', k', heq, hk', -⟩ := hsave'
      obtain ⟨rfl, -⟩ := Act.step.inj heq
      rw [hk] at hk'
      obtain ⟨-, rfl, hd⟩ := Request.web.inj (Prod.mk.inj (Option.some.inj hk')).1
      obtain rfl := WebRequest.update.inj hd
      exact hfree uid'' hemail
    · intro hfree
      exact hfree user.id d hsave
  · have hnot : ∀ uid d, ¬ Saves a c uid d := fun uid d h => hsaves ⟨uid, d, h⟩
    rw [uniqueEmails_congr (emailIn_of_step h₀ hreach ha hnot)]
    exact ⟨fun _ uid d h => absurd h (hnot uid d), fun _ => hunique⟩

/-- The addresses are pairwise different in every state of a run if and only if every save that is
carried out finds the new address free, or that of the user. -/
theorem uniqueEmails_along_iff (P : Platform) {s₀ : State} (h₀ : s₀.history = [])
    (hunique : UniqueEmails s₀.users) (as : List (Act Request Choice ℕ)) :
    (system P).Along (fun _ _ c' => UniqueEmails c'.shared.users) as (.initial s₀) ↔
      (system P).Along SavesFreeEmail as (.initial s₀) :=
  System.along_iff (I := fun c => UniqueEmails c.shared.users) hunique
    (fun _ _ _ hreach hI ha => uniqueEmails_step_iff h₀ hreach ha hI) as

/-! ## Saves that nothing has disturbed -/

variable {uid email : String}

/-- From `c` to `c'` no form of the user was saved, and none with this address. -/
def NoSaveSince (uid email : String) (c c' : Configuration) : Prop :=
  ∃ evs, c'.shared.history = evs ++ c.shared.history ∧
    ∀ j user d, .usersCommitted j (savedDetails user d) ∈ evs → user.id ≠ uid ∧ d.email ≠ email

/-- The same holds up to every moment in between, and from it on. -/
theorem NoSaveSince.split {c'' : Configuration} (h : NoSaveSince uid email c c'')
    (h₁ : (system P).Reaches c c') (h₂ : (system P).Reaches c' c'') :
    NoSaveSince uid email c c' ∧ NoSaveSince uid email c' c'' := by
  obtain ⟨evs, hevs, hno⟩ := h
  obtain ⟨evs₁, h₁⟩ := evolves_of_reaches h₁
  obtain ⟨evs₂, h₂⟩ := evolves_of_reaches h₂
  have hsplit : evs = evs₂ ++ evs₁ := by
    have hhistory := h₂.history
    rw [h₁.history, hevs, ← List.append_assoc] at hhistory
    exact List.append_cancel_right hhistory
  subst hsplit
  exact ⟨⟨evs₁, h₁.history, fun j user d hmem => hno j user d (List.mem_append_right _ hmem)⟩,
    ⟨evs₂, h₂.history, fun j user d hmem => hno j user d (List.mem_append_left _ hmem)⟩⟩

/-- The address of the user is what it was, and no one has got this address. -/
theorem emails_of_noSaveSince (h₀ : s₀.history = []) (hreach : (system P).Reaches (.initial s₀) c)
    (h : (system P).Reaches c c') (hno : NoSaveSince uid email c c') :
    emailIn c'.shared.users uid = emailIn c.shared.users uid ∧
      ∀ u, emailIn c'.shared.users u = some email → emailIn c.shared.users u = some email := by
  induction h with
  | refl => exact ⟨rfl, fun _ => id⟩
  | @tail b b' h hstep ih =>
    obtain ⟨hbefore, hlast⟩ := hno.split h (.single hstep)
    obtain ⟨hsame, hholds⟩ := ih hbefore
    obtain ⟨a, ha⟩ := hstep
    by_cases hsaves : ∃ uid d, Saves a b uid d
    · obtain ⟨uid', d, hsave⟩ := hsaves
      obtain ⟨i, user, -, hcommit, hhistory⟩ := savedDetails_of_saves h₀ (hreach.trans h) ha hsave
      obtain ⟨evs, hevs, hnone⟩ := hlast
      have hmem : .usersCommitted i (savedDetails user d) ∈ evs := by
        have hone : [Event.usersCommitted i (savedDetails user d)] = evs :=
          List.append_cancel_right (hhistory.symm.trans hevs)
        rw [← hone]
        exact List.mem_singleton.2 rfl
      obtain ⟨hid, hemail⟩ := hnone i user d hmem
      have hsaved := email_of_saved hcommit
      refine ⟨((hsaved uid).trans (if_neg hid)).trans hsame, fun u hu => hholds u ?_⟩
      have hu := (hsaved u).symm.trans hu
      split_ifs at hu
      · exact absurd (Option.some.inj hu) hemail
      · exact hu
    · have hnot : ∀ uid d, ¬ Saves a b uid d := fun uid d hsave => hsaves ⟨uid, d, hsave⟩
      have hkeep := emailIn_of_step h₀ (hreach.trans h) ha hnot
      exact ⟨(hkeep uid).trans hsame, fun u hu => hholds u ((hkeep u).symm.trans hu)⟩

/-- What the two queries of `Update` return when the address belongs to someone else. -/
def TakenMeanwhile (uid email : String) : (e : Op) → e.Res → Prop
  | .findUser uid', x => ∀ user, x = .ok (some user) → uid' = uid → user.email ≠ email
  | .countEmail email', x => ∀ n : ℕ, x = .ok n → email' = email → n ≠ 0
  | _, _ => True

theorem refused_performsIf {V : (e : Op) → e.Res → Prop} {Q : Op → Prop} {user : User} {d : UserDetails}
    {count : ℕ} (h : ¬ (count = 0 ∨ user.email = d.email)) (p : Action Reply) :
    (answer (if count = 0 ∨ user.email = d.email then p
      else return .redirect false "Updating account information failed.")).PerformsIf V Q := by
  rw [if_neg h]
  trivial

/-- Then `Update` saves nothing. -/
theorem update_performsIf (machineName uid : String) (d : UserDetails) :
    ((system P).handler (.web machineName uid (.update d))).PerformsIf (TakenMeanwhile uid d.email)
      fun e => ∀ ws, e ≠ .commitUsers ws := by
  show (answer (AccountController.update P machineName uid d)).PerformsIf _ _
  unfold AccountController.update
  split
  · trivial
  · refine ⟨fun ws => by simp, fun x hx => ?_⟩
    cases x with
    | error fault => trivial
    | ok user =>
      cases user with
      | none => trivial
      | some user =>
        have huser : user.email ≠ d.email := hx user rfl rfl
        refine ⟨fun ws => by simp, fun x hx => ?_⟩
        cases x with
        | error fault => trivial
        | ok n =>
          exact refused_performsIf (not_or.2 ⟨hx n rfl rfl, huser⟩) _

/-- A save finds the address free, or that of the user, when no form of that user, and none with that
address, was saved since the request arrived. -/
theorem savesFreeEmail_of_noSaveSince (h₀ : s₀.history = [])
    (hreach : (system P).Reaches (.initial s₀) c) (hunique : UniqueEmails c.shared.users)
    (h : (system P).Reaches c c') {i : ℕ} {machineName : String} {d : UserDetails}
    (hnew : (system P).Unbegun c i (.web machineName uid (.update d)))
    (hno : NoSaveSince uid d.email c c') (c'' : Configuration) {ws : List UserWrite}
    {k : (Op.commitUsers ws).Res → Program Op Op.Res Reply}
    (hi : c'.procs i = some (.web machineName uid (.update d), .op (.commitUsers ws) k)) :
    SavesFreeEmail (.step i .ok) c' c'' := by
  rintro uid' d' ⟨j, m, ws', k', hact, hj, -⟩ u hu
  obtain ⟨rfl, -⟩ := Act.step.inj hact
  rw [hi] at hj
  obtain ⟨-, rfl, hd⟩ := Request.web.inj (Prod.mk.inj (Option.some.inj hj)).1
  obtain rfl := WebRequest.update.inj hd
  by_contra hne
  -- another user has had the address all along, so the form is refused
  refine System.performs_between (update_performsIf machineName uid d) h hnew ?_ hi ws rfl
  intro b hb hb' e ch
  obtain ⟨hbefore, hafter⟩ := hno.split hb hb'
  have hheld : emailIn b.shared.users u = some d.email :=
    (emails_of_noSaveSince h₀ (hreach.trans hb) hb' hafter).2 u hu
  obtain ⟨hown, hholds⟩ := emails_of_noSaveSince h₀ hreach hb hbefore
  have hother : emailIn b.shared.users uid ≠ some d.email := fun huid =>
    hne (uniqueEmails_iff.1 hunique u uid d.email (hholds u hheld) (hown ▸ huid))
  cases e with
  | findUser uid' =>
    rintro user hx rfl hemail
    cases ch with
    | ok =>
      refine hother ?_
      have hfind : b.shared.users.find? uid' = some user := Except.ok.inj hx
      rw [emailIn, hfind, Option.map_some, hemail]
    | throws written => cases hx
  | countEmail email' =>
    rintro n hx rfl rfl
    cases ch with
    | ok =>
      obtain ⟨v, hfind, hemail⟩ := Option.map_eq_some_iff.1 hheld
      have hzero := List.countP_eq_zero.1 (Except.ok.inj hx) v (Table.find?_eq_some_iff.1 hfind).1
      exact hzero (decide_eq_true hemail)
    | throws written => cases hx
  | _ => trivial

section

open Deployment

/-- A request of the user `ms` to change the address to the one that `a3` asks for. -/
def sameEmailUpdate : Request := .web "aslcert01" "ms" (.update ⟨"Michael", "Schlaepfer", newEmail⟩)

/-- `Update` is about to save an address that no other user has. -/
def checksFreeEmail (a : Act Request Choice ℕ) (c : Configuration) : Bool :=
  match a with
  | .step i .ok =>
      match c.procs i with
      | some (.web _ uid (.update d), .op (.commitUsers _) _) =>
          c.shared.users.rows.all fun u => decide (u.email = d.email → u.id = uid)
      | _ => true
  | _ => true

theorem savesFreeEmail_of_checks (a : Act Request Choice ℕ) (c c' : Configuration)
    (h : checksFreeEmail a c = true) : SavesFreeEmail a c c' := by
  rintro uid d ⟨i, m, ws, k, rfl, hk, -⟩ uid' hemail
  simp only [checksFreeEmail, hk, List.all_eq_true, decide_eq_true_eq] at h
  obtain ⟨u, hfind, hu⟩ := Option.map_eq_some_iff.1 hemail
  obtain ⟨hmem, hid⟩ := Table.find?_eq_some_iff.1 hfind
  exact hid.symm.trans (h u hmem hu)

/-- Two updates, one after the other. -/
def updatesInTurn : List (Act Request Choice ℕ) :=
  .arrive 0 emailUpdate :: (steps 0 8 ++ .arrive 1 sameEmailUpdate :: steps 1 2)

/-- Two updates that both count before either saves. -/
def updatesAtOnce : List (Act Request Choice ℕ) :=
  .arrive 0 emailUpdate :: .arrive 1 sameEmailUpdate ::
    (steps 0 7 ++ (steps 1 7 ++ (steps 0 1 ++ steps 1 1)))

theorem uniqueEmails_in_turn : (system platform).Along (fun _ _ c' => UniqueEmails c'.shared.users)
    updatesInTurn (.initial (installed twoUsers)) :=
  (uniqueEmails_along_iff platform rfl (by decide) updatesInTurn).2
    (System.along_of_tests savesFreeEmail_of_checks (by decide +kernel))

/-- After two updates at once, two users have the same address. -/
theorem duplicate_email : ¬ ∀ (P : Platform) (s₀ : State) (c : Configuration), s₀.history = [] →
    UniqueEmails s₀.users → (system P).Reaches (.initial s₀) c →
    (∀ i req, c.request i = some req → ∃ m uid d, req = .web m uid (.update d)) →
      UniqueEmails c.shared.users := by
  intro hclaim
  have hrun : ((system platform).run updatesAtOnce (.initial (installed twoUsers))).any (fun c =>
      decide (¬ UniqueEmails c.shared.users) && decide (c.request 0 = some emailUpdate) &&
        decide (c.request 1 = some sameEmailUpdate)) = true := by decide +kernel
  obtain ⟨c, hc, hcheck⟩ := (Option.any_eq_true _ _).1 hrun
  simp only [Bool.and_eq_true, decide_eq_true_eq] at hcheck
  obtain ⟨⟨hduplicate, hzero⟩, hone⟩ := hcheck
  refine hduplicate (hclaim platform (installed twoUsers) c rfl (by decide)
    (System.reaches_of_run hc) ?_)
  intro i req hi
  have hne : c.procs i ≠ none := by
    intro hnone
    simp [Config.request, hnone] at hi
  rcases eq_or_eq_of_procs hc (by decide) hne with rfl | rfl
  · rw [hzero] at hi
    exact ⟨_, _, _, (Option.some.inj hi).symm⟩
  · rw [hone] at hi
    exact ⟨_, _, _, (Option.some.inj hi).symm⟩

end

end IMoviesCA
