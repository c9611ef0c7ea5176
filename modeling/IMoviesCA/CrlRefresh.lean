import IMoviesCA.CrlEncoding

/-!
# The chained list of nginx

`update_crl.sh` asks the web server for the list of the CA server, converts it and chains it to the
lists of the root and of the intermediate CA.  It looks for these two files first and at nothing
after that: an exception of the CA becomes `null` in `CoreCAClient.GetCRL`, an empty success in
`CRLController`, an empty file in the script, and a chain without any list of the CA server.

The chained file is what it was, or ends with the list that the CA server has just served, exactly
when the script stops at its first test, cannot open the chained file, gets and converts the whole
list, or finds in the chained file what it is about to write there (`chainKept_iff`).
-/

namespace IMoviesCA

/-! ## The endpoints -/

/-- A response, by its status and its body. -/
structure HttpResponse where
  status : ℕ
  body : List UInt8
  deriving DecidableEq, Repr

/-- `HttpResponseMessage.IsSuccessStatusCode`. -/
def HttpResponse.isSuccessStatusCode (r : HttpResponse) : Bool := 200 ≤ r.status && r.status ≤ 299

/-- What `GetEncoded` of BouncyCastle and `openssl crl -inform DER -outform PEM` do to a list. -/
structure CrlTools where
  getEncoded : X509Crl → List UInt8
  /-- The PEM form of the list that the input starts with; `none` when it starts with no list. -/
  toPem : List UInt8 → Option (List UInt8)
  toPem_getEncoded : ∀ crl, (toPem (getEncoded crl)).isSome = true
  /-- A list carries its length: what breaks off before its end is no list. -/
  toPem_take : ∀ crl n, n < (getEncoded crl).length → toPem ((getEncoded crl).take n) = none
  /-- A list in DER is a sequence. -/
  head_of_toPem : ∀ bytes text, toPem bytes = some text → bytes.head? = some 0x30
  /-- The first boundary of a PEM text. -/
  head_toPem : ∀ bytes text, toPem bytes = some text → text.head? = some 0x2d

/-- A page that nginx answers with by itself: HTML. -/
structure ErrorPage where
  bytes : List UInt8
  head_bytes : bytes.head? = some 0x3c

/-- The values that the actions of the two endpoints pass to `Ok`. -/
inductive CrlValue
  | crl (crl : X509Crl)
  | bytes (bytes : List UInt8)
  deriving DecidableEq

/-- The output formatters that may write a value for `application/pkix-crl`, in their order: those
for text and JSON do not write this media type. -/
inductive OutputFormatter
  | httpNoContent
  | crlDer
  deriving DecidableEq, Repr

/-- `CanWriteResult`: a missing value is no content. -/
def OutputFormatter.canWriteResult (value : Option CrlValue) : OutputFormatter → Bool
  | httpNoContent => value.isNone
  | crlDer => value.isSome

section

variable (T : CrlTools)

/-- `WriteResponseBodyAsync`. -/
def CrlDerOutputFormatter.writeResponseBody : CrlValue → List UInt8
  | .crl crl => T.getEncoded crl
  | .bytes crlBytes => crlBytes

/-- `Ok(value)` under `[Produces(Constants.CrlMimeType)]`. -/
def okCrl (value : Option CrlValue) : HttpResponse :=
  match [OutputFormatter.httpNoContent, .crlDer].find? fun f => f.canWriteResult value with
  | some .httpNoContent => ⟨204, []⟩
  | some .crlDer => ⟨200, (value.map (CrlDerOutputFormatter.writeResponseBody T)).getD []⟩
  | none => ⟨406, []⟩

/-- The answer of the CA server's endpoint: a list, or an exception. -/
def crlResponse : Reply → HttpResponse
  | .crl crl => okCrl T (some (.crl crl))
  | _ => ⟨500, []⟩

/-- What comes of the web server's request to the CA server. -/
inductive CaOutcome
  /-- No connection, or one that breaks off: `HttpClient` throws. -/
  | unreachable
  /-- The proxy in front of the CA server answers with an error. -/
  | badGateway
  | answers (reply : Reply)
  deriving DecidableEq

/-- `GetCRL` of the client: without a success there is no list. -/
def CoreCAClient.getCRL : CaOutcome → Except Fault (Option (List UInt8))
  | .unreachable => .error .external
  | .badGateway => .ok none
  | .answers reply =>
      let response := crlResponse T reply
      if !response.isSuccessStatusCode then .ok none else .ok (some response.body)

/-- `CRLController.Get` of the web server. -/
def CRLController.get (ca : CaOutcome) : HttpResponse :=
  match CoreCAClient.getCRL T ca with
  | .error _ => ⟨500, []⟩
  | .ok crl => okCrl T (crl.map .bytes)

/-- What comes of curl's request to the web server. -/
inductive WebOutcome
  | passes
  /-- nginx answers in place of the web server. -/
  | errorPage (page : ErrorPage)

/-! ## `update_crl.sh` -/

/-- What comes of a command that writes a file: the file cannot be opened, or the first `n` bytes are
written. -/
inductive Written
  | notOpened
  | bytes (n : ℕ)
  deriving DecidableEq, Repr

/-- The file after the command. -/
def Written.apply (text : List UInt8) (file : Option (List UInt8)) : Written → Option (List UInt8)
  | notOpened => file
  | bytes n => some (text.take n)

/-- What comes of the steps of one execution. -/
structure RefreshOutcomes where
  ca : CaOutcome
  web : WebOutcome
  curl : Written
  openssl : Written
  cat : Written
  rm : Bool

/-- The files of the script; `none` is one that does not exist. -/
structure CrlFiles where
  rootCrl : Option (List UInt8)
  intermediateCrl : Option (List UInt8)
  clientCrl : Option (List UInt8)
  chainedCrl : Option (List UInt8)
  deriving DecidableEq

/-- The body that curl is sent: it does not look at the status. -/
def RefreshOutcomes.body (o : RefreshOutcomes) : List UInt8 :=
  match o.web with
  | .passes => (CRLController.get T o.ca).body
  | .errorPage page => page.bytes

namespace UpdateCrl

variable (o : RefreshOutcomes)

/-- `curl 'http://localhost/crl/revoked.crl' > "$client_crl"`. -/
def curl (files : CrlFiles) : CrlFiles :=
  { files with clientCrl := o.curl.apply (o.body T) files.clientCrl }

/-- `openssl crl -inform DER -in "$client_crl" -outform PEM -out "$client_crl"`: the output is opened
when the input was read. -/
def openssl (files : CrlFiles) : CrlFiles :=
  match files.clientCrl.bind T.toPem with
  | none => files
  | some text => { files with clientCrl := o.openssl.apply text files.clientCrl }

/-- `cat "$root_crl" "$intermediate_crl" "$client_crl" > "$chained_crl"`: a file that is not there is
left out. -/
def cat (files : CrlFiles) : CrlFiles :=
  { files with chainedCrl := o.cat.apply (files.rootCrl.getD [] ++ files.intermediateCrl.getD [] ++
      files.clientCrl.getD []) files.chainedCrl }

/-- `rm -f "$client_crl"`. -/
def rm (files : CrlFiles) : CrlFiles :=
  if o.rm then { files with clientCrl := none } else files

/-- The script up to the reload of nginx, which changes no file. -/
def updateCrl (files : CrlFiles) : CrlFiles :=
  if !(files.rootCrl.isSome && files.intermediateCrl.isSome) then files
  else rm o (cat o (openssl T o (curl T o files)))

end UpdateCrl

/-! ## What becomes of the chain -/

/-- The list that the CA server has served to this execution. -/
def RefreshOutcomes.served (o : RefreshOutcomes) : Option X509Crl :=
  match o.curl, o.ca with
  | .bytes _, .answers (.crl crl) => some crl
  | _, _ => none

variable (o : RefreshOutcomes) (files : CrlFiles)

/-- The chained file is what it was, or the lists of the root, of the intermediate CA and the one that
the CA server has just served. -/
def ChainKept : Prop :=
  (UpdateCrl.updateCrl T o files).chainedCrl = files.chainedCrl ∨
    ∃ root intermediate crl text, files.rootCrl = some root ∧
      files.intermediateCrl = some intermediate ∧ o.served = some crl ∧
      T.toPem (T.getEncoded crl) = some text ∧
      (UpdateCrl.updateCrl T o files).chainedCrl = some (root ++ intermediate ++ text)

/-- What is in the client file when curl has ended. -/
def received : Option (List UInt8) := o.curl.apply (o.body T) files.clientCrl

/-- What is in the client file when the chain is written. -/
def leftover : List UInt8 :=
  match (received T o files).bind T.toPem with
  | none => (received T o files).getD []
  | some text => (o.openssl.apply text (received T o files)).getD []

end

/-- The command has written the whole text. -/
def Written.Completes (text : List UInt8) : Written → Prop
  | notOpened => False
  | bytes n => text.length ≤ n

/-- The list arrives as a whole, and is converted and chained as a whole. -/
structure GetsList (T : CrlTools) (o : RefreshOutcomes) (root intermediate : List UInt8) (crl : X509Crl)
    (text : List UInt8) : Prop where
  answers : o.ca = .answers (.crl crl)
  passes : o.web = .passes
  curl : o.curl.Completes (T.getEncoded crl)
  converts : T.toPem (T.getEncoded crl) = some text
  openssl : o.openssl.Completes text
  cat : o.cat.Completes (root ++ intermediate ++ text)

/-- The inputs with which the chained file is safe. -/
def RefreshSafe (T : CrlTools) (o : RefreshOutcomes) (files : CrlFiles) : Prop :=
  ∀ root intermediate, files.rootCrl = some root → files.intermediateCrl = some intermediate →
    ∀ n, o.cat = .bytes n → (∃ crl text, GetsList T o root intermediate crl text) ∨
      files.chainedCrl = some ((root ++ intermediate ++ leftover T o files).take n)

variable {T : CrlTools} {o : RefreshOutcomes} {files : CrlFiles} {root intermediate : List UInt8}

theorem Written.apply_of_completes {w : Written} {text : List UInt8} (h : w.Completes text)
    (file : Option (List UInt8)) : w.apply text file = some text := by
  cases w with
  | notOpened => cases h
  | bytes n => exact congrArg some (List.take_of_length_le h)

/-- The web server passes the list of the CA server on. -/
theorem body_of_crl {crl : X509Crl} (hca : o.ca = .answers (.crl crl)) (hweb : o.web = .passes) :
    o.body T = T.getEncoded crl := by
  rw [RefreshOutcomes.body, hweb, hca]
  rfl

/-- Without a list of the CA server, the web server answers with success and with nothing. -/
theorem body_of_no_crl (hca : ∀ crl, o.ca ≠ .answers (.crl crl)) (hweb : o.web = .passes) :
    o.body T = [] := by
  rw [RefreshOutcomes.body, hweb]
  cases hcase : o.ca with
  | unreachable => rfl
  | badGateway => rfl
  | answers reply =>
    cases reply with
    | crl crl => exact absurd hcase (hca crl)
    | _ => rfl

theorem chainedCrl_of_stops (h : files.rootCrl = none ∨ files.intermediateCrl = none) :
    (UpdateCrl.updateCrl T o files).chainedCrl = files.chainedCrl := by
  unfold UpdateCrl.updateCrl
  rcases h with h | h <;> simp [h]

theorem chainedCrl_rm (o : RefreshOutcomes) (files : CrlFiles) :
    (UpdateCrl.rm o files).chainedCrl = files.chainedCrl := by
  unfold UpdateCrl.rm
  split_ifs <;> rfl

/-- Before the chain is written only the client file has changed. -/
theorem openssl_curl_eq : UpdateCrl.openssl T o (UpdateCrl.curl T o files) =
    { files with clientCrl := (UpdateCrl.openssl T o (UpdateCrl.curl T o files)).clientCrl } := by
  unfold UpdateCrl.openssl
  split <;> rfl

theorem clientCrl_openssl_curl :
    (UpdateCrl.openssl T o (UpdateCrl.curl T o files)).clientCrl.getD [] = leftover T o files := by
  have hreceived : (UpdateCrl.curl T o files).clientCrl = received T o files := rfl
  unfold UpdateCrl.openssl leftover
  rw [hreceived]
  split <;> rfl

/-- The script writes what is left in the client file behind the two lists. -/
theorem chainedCrl_updateCrl (hroot : files.rootCrl = some root)
    (hintermediate : files.intermediateCrl = some intermediate) :
    (UpdateCrl.updateCrl T o files).chainedCrl =
      o.cat.apply (root ++ intermediate ++ leftover T o files) files.chainedCrl := by
  have htest : ¬ (!(files.rootCrl.isSome && files.intermediateCrl.isSome)) = true := by
    simp [hroot, hintermediate]
  rw [UpdateCrl.updateCrl, if_neg htest, chainedCrl_rm, UpdateCrl.cat, clientCrl_openssl_curl,
    openssl_curl_eq, hroot, hintermediate]
  rfl

/-- The whole list is left when it has arrived and was converted. -/
theorem leftover_of_getsList {crl : X509Crl} {text : List UInt8}
    (h : GetsList T o root intermediate crl text) : leftover T o files = text := by
  have hreceived : received T o files = some (T.getEncoded crl) := by
    rw [received, body_of_crl h.answers h.passes]
    exact Written.apply_of_completes h.curl _
  unfold leftover
  rw [hreceived, Option.bind_some, h.converts]
  exact congrArg (fun file => Option.getD file []) (Written.apply_of_completes h.openssl _)

/-- The bytes that curl was sent are left when they are not converted. -/
theorem leftover_of_not_converted {n : ℕ} (hcurl : o.curl = .bytes n)
    (h : T.toPem ((o.body T).take n) = none) : leftover T o files = (o.body T).take n := by
  have hreceived : received T o files = some ((o.body T).take n) := by
    rw [received, hcurl]
    rfl
  unfold leftover
  rw [hreceived, Option.bind_some, h]
  rfl

/-- After a failure of the CA server the chain ends with the list of the intermediate CA. -/
theorem chainedCrl_of_no_crl (hroot : files.rootCrl = some root)
    (hintermediate : files.intermediateCrl = some intermediate)
    (hca : ∀ crl, o.ca ≠ .answers (.crl crl)) (hweb : o.web = .passes) {n : ℕ}
    (hcurl : o.curl = .bytes n) : (UpdateCrl.updateCrl T o files).chainedCrl =
      o.cat.apply (root ++ intermediate) files.chainedCrl := by
  have hnil : (o.body T).take n = [] := by
    rw [body_of_no_crl hca hweb]
    exact List.take_nil
  have hnone : T.toPem [] = none := by
    cases htext : T.toPem [] with
    | none => rfl
    | some text => cases T.head_of_toPem _ _ htext
  rw [chainedCrl_updateCrl hroot hintermediate, leftover_of_not_converted hcurl (by rw [hnil, hnone]),
    hnil, List.append_nil]

/-- A command that has written a whole text has written what it was to write. -/
theorem prefix_of_take {l text : List UInt8} {n : ℕ}
    (h : (root ++ intermediate ++ l).take n = root ++ intermediate ++ text) : text <+: l := by
  have hpre : root ++ intermediate ++ text <+: root ++ intermediate ++ l := by
    rw [← h]
    exact List.take_prefix _ _
  exact (List.prefix_append_right_inj _).1 hpre

theorem head_of_prefix {text l : List UInt8} {b : UInt8} (h : text <+: l)
    (hb : text.head? = some b) : l.head? = some b := by
  obtain ⟨rest, rfl⟩ := h
  rw [List.head?_append, hb]
  rfl

/-- What starts otherwise, or breaks off, is not converted. -/
theorem toPem_take_of_head {l : List UInt8} {b : UInt8} (hl : l.head? = some b) (hb : b ≠ 0x30)
    (n : ℕ) : T.toPem (l.take n) = none := by
  cases htext : T.toPem (l.take n) with
  | none => rfl
  | some text =>
    have hhead := head_of_prefix (List.take_prefix n l) (T.head_of_toPem _ _ htext)
    rw [hl] at hhead
    exact absurd (Option.some.inj hhead) hb

/-- A list was served: the download was opened, and the CA server answered with it. -/
theorem exists_bytes_of_served {crl : X509Crl} (hserved : o.served = some crl) :
    ∃ n, o.curl = .bytes n ∧ o.ca = .answers (.crl crl) := by
  unfold RefreshOutcomes.served at hserved
  split at hserved
  · rename_i n crl' hcurl hca
    obtain rfl := Option.some.inj hserved
    exact ⟨n, hcurl, hca⟩
  · cases hserved

/-- The PEM form of a list starts with a dash. -/
theorem not_prefix_of_head {der text l : List UInt8} (htext : T.toPem der = some text) {b : UInt8}
    (hl : l.head? = some b) (hb : b ≠ 0x2d) : ¬ text <+: l := by
  intro h
  have hhead := head_of_prefix h (T.head_toPem _ _ htext)
  rw [hl] at hhead
  exact hb (Option.some.inj hhead)

/-- Only a list that has arrived as a whole and was converted as a whole leaves the PEM form of the
list that was served. -/
theorem getsList_of_prefix {crl : X509Crl} {text : List UInt8} (hserved : o.served = some crl)
    (htext : T.toPem (T.getEncoded crl) = some text) (hpre : text <+: leftover T o files) :
    o.ca = .answers (.crl crl) ∧ o.web = .passes ∧ o.curl.Completes (T.getEncoded crl) ∧
      o.openssl.Completes text ∧ leftover T o files = text := by
  obtain ⟨n, hcurl, hca⟩ := exists_bytes_of_served hserved
  have hder := T.head_of_toPem _ _ htext
  cases hweb : o.web with
  | errorPage page =>
    exfalso
    have hbody : o.body T = page.bytes := by
      rw [RefreshOutcomes.body, hweb]
    rw [leftover_of_not_converted hcurl, hbody] at hpre
    · exact not_prefix_of_head htext page.head_bytes (by decide) (hpre.trans (List.take_prefix _ _))
    · rw [hbody]
      exact toPem_take_of_head page.head_bytes (by decide) n
  | passes =>
    have hbody := body_of_crl (T := T) hca hweb
    by_cases hn : n < (T.getEncoded crl).length
    · exfalso
      rw [leftover_of_not_converted hcurl, hbody] at hpre
      · exact not_prefix_of_head htext hder (by decide) (hpre.trans (List.take_prefix _ _))
      · rw [hbody]
        exact T.toPem_take crl n hn
    · have hcomplete : o.curl.Completes (T.getEncoded crl) := by
        rw [hcurl]
        exact Nat.le_of_not_lt hn
      have hreceived : received T o files = some (T.getEncoded crl) := by
        rw [received, hbody]
        exact Written.apply_of_completes hcomplete _
      have hleft : leftover T o files = (o.openssl.apply text (some (T.getEncoded crl))).getD [] := by
        unfold leftover
        rw [hreceived, Option.bind_some, htext]
      rw [hleft] at hpre ⊢
      cases hopenssl : o.openssl with
      | notOpened =>
        rw [hopenssl] at hpre
        exact absurd hpre (not_prefix_of_head htext hder (by decide))
      | bytes m =>
        rw [hopenssl] at hpre
        have hm : text.length ≤ m := by
          have hlength := List.IsPrefix.length_le hpre
          simp only [Written.apply, Option.getD_some, List.length_take] at hlength
          omega
        refine ⟨hca, rfl, hcomplete, hm, ?_⟩
        exact List.take_of_length_le hm

/-- The chained file is what it was, or ends with the list that was just served, if and only if the
inputs are safe. -/
theorem chainKept_iff (T : CrlTools) (o : RefreshOutcomes) (files : CrlFiles) :
    ChainKept T o files ↔ RefreshSafe T o files := by
  constructor
  · intro hkept root intermediate hroot hintermediate n hcat
    rw [ChainKept, chainedCrl_updateCrl hroot hintermediate, hcat] at hkept
    rcases hkept with hold | ⟨root', intermediate', crl, text, hroot', hintermediate', hserved, htext,
      hnew⟩
    · exact Or.inr hold.symm
    · obtain rfl : root = root' := Option.some.inj (hroot.symm.trans hroot')
      obtain rfl : intermediate = intermediate' :=
        Option.some.inj (hintermediate.symm.trans hintermediate')
      have htake := Option.some.inj hnew
      obtain ⟨hca, hweb, hcurl, hopenssl, hleft⟩ :=
        getsList_of_prefix hserved htext (prefix_of_take htake)
      refine Or.inl ⟨crl, text, hca, hweb, hcurl, htext, hopenssl, ?_⟩
      rw [hcat]
      show _ ≤ n
      rw [← htake, List.length_take]
      exact Nat.min_le_left _ _
  · intro hsafe
    by_cases hstops : files.rootCrl = none ∨ files.intermediateCrl = none
    · exact Or.inl (chainedCrl_of_stops hstops)
    · obtain ⟨root, hroot⟩ := Option.ne_none_iff_exists'.1 (not_or.1 hstops).1
      obtain ⟨intermediate, hintermediate⟩ := Option.ne_none_iff_exists'.1 (not_or.1 hstops).2
      cases hcat : o.cat with
      | notOpened =>
        refine Or.inl ((chainedCrl_updateCrl hroot hintermediate).trans ?_)
        rw [hcat]
        rfl
      | bytes n =>
        rcases hsafe root intermediate hroot hintermediate n hcat with ⟨crl, text, hgets⟩ | hthere
        · refine Or.inr ⟨root, intermediate, crl, text, hroot, hintermediate, ?_, hgets.converts, ?_⟩
          · cases hcurl : o.curl with
            | notOpened =>
              have := hgets.curl
              rw [hcurl] at this
              cases this
            | bytes k =>
              unfold RefreshOutcomes.served
              rw [hcurl, hgets.answers]
          · rw [chainedCrl_updateCrl hroot hintermediate, leftover_of_getsList hgets]
            exact Written.apply_of_completes hgets.cat _
        · refine Or.inl ((chainedCrl_updateCrl hroot hintermediate).trans ?_)
          rw [hcat, hthere]
          rfl

section

/-- The tools on the bytes of a list. -/
def derTools : CrlTools where
  getEncoded := X509Crl.getEncoded
  toPem := X509Crl.opensslPem
  toPem_getEncoded crl := Option.isSome_iff_exists.2 ⟨_, crl.opensslPem_getEncoded⟩
  toPem_take crl _ := crl.opensslPem_take
  head_of_toPem _ _ := X509Crl.head_of_opensslPem
  head_toPem _ _ := X509Crl.head_opensslPem

/-- A list of a CA with these entries. -/
def caList (commonName : String) (entries : List CrlEntry) : X509Crl where
  issuerDN := [⟨.commonName, commonName⟩]
  thisUpdate := 0
  nextUpdate := addDays 0 30
  entries := entries
  authorityKeyIdentifier := ⟨.RSA, 4096, 0⟩
  signatureAlgorithm := "SHA512WITHRSA"
  signedBy := ⟨.RSA, 4096, 0⟩

/-- The list of the root CA. -/
def rootText : List UInt8 := (caList "iMovies Root CA" []).text

/-- The list of the intermediate CA. -/
def intermediateText : List UInt8 := (caList "iMovies intermediate CA" []).text

/-- The list of the CA server, with one revoked certificate. -/
def clientText : List UInt8 :=
  (caList "iMovies external aslcert01 intermediate CA" [⟨0, 0, .keyCompromise⟩]).text

theorem clientText_ne_nil : clientText ≠ [] := by
  intro hnil
  have hhead := X509Crl.head_opensslPem (X509Crl.opensslPem_getEncoded
    (caList "iMovies external aslcert01 intermediate CA" [⟨0, 0, .keyCompromise⟩]))
  have hclient : clientText.head? = some 0x2d := hhead
  rw [hnil] at hclient
  cases hclient

/-- The CA server fails, and every step of the script is carried out. -/
def failedRefresh : RefreshOutcomes where
  ca := .answers .serverError
  web := .passes
  curl := .bytes 4096
  openssl := .bytes 4096
  cat := .bytes 4096
  rm := true

/-- The files after a refresh that went well. -/
def refreshedFiles : CrlFiles where
  rootCrl := some rootText
  intermediateCrl := some intermediateText
  clientCrl := none
  chainedCrl := some (rootText ++ intermediateText ++ clientText)

/-- After a failure of the CA server its list is gone from the chained file. -/
theorem chain_loses_list : ¬ ∀ (T : CrlTools) (o : RefreshOutcomes) (files : CrlFiles),
    ChainKept T o files := by
  intro hclaim
  have hca : ∀ crl, failedRefresh.ca ≠ .answers (.crl crl) := by
    intro crl h
    cases h
  have hchain : (UpdateCrl.updateCrl derTools failedRefresh refreshedFiles).chainedCrl =
      some ((rootText ++ intermediateText).take 4096) := chainedCrl_of_no_crl rfl rfl hca rfl rfl
  rcases hclaim derTools failedRefresh refreshedFiles with hold | ⟨_, _, _, _, _, _, hserved, -⟩
  · rw [hchain] at hold
    have htake : (rootText ++ intermediateText).take 4096 =
        rootText ++ intermediateText ++ clientText := Option.some.inj hold
    have hlength := congrArg List.length htake
    have hpos : 0 < clientText.length := List.length_pos_of_ne_nil clientText_ne_nil
    simp only [List.length_take, List.length_append] at hlength
    omega
  · cases hserved

end

end IMoviesCA
