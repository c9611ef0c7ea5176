import IMoviesCA.Text

/-!
# Distinguished names

`parse` is the reader of `new X500DistinguishedName(string)`, one character after the other: it
reads `attribute=value` components between `,`, `;` and `+`, drops the blanks around a value and
reads a value that begins with `"` up to the closing `"`, where `""` stands for a quote.  The
attribute names are read by a parameter (`attributeType`).

`parse_commonName_of_plain` says that the name is read back from `"CN=" ++ id` when the identifier
is `Plain`, and `length_lt_of_not_plain` that otherwise every value that is read is shorter.
-/

namespace IMoviesCA

/-- The attribute of a component: a common name, or another object identifier. -/
inductive AttributeType
  | commonName
  | other (oid : String)
  deriving DecidableEq, Repr

/-- One `attribute=value` component. -/
structure Rdn where
  attr : AttributeType
  value : String
  deriving DecidableEq, Repr

/-- The components of a name, in the order of the string. -/
abbrev DistinguishedName := List Rdn

/-- The values of the common-name components. -/
def commonNames (dn : DistinguishedName) : List String :=
  (dn.filter fun r => r.attr = .commonName).map Rdn.value

namespace X500

/-- The states of the reader, with what was read of the current component. -/
inductive ParseState
  | seekTag
  | seekTagEnd (tag : List Char)
  | seekEquals (tag : List Char)
  | seekValueStart (a : AttributeType)
  | seekValueEnd (a : AttributeType) (value blanks : List Char)
  | seekEndQuote (a : AttributeType) (value : List Char)
  | maybeEndQuote (a : AttributeType) (value : List Char)
  | seekComma (a : AttributeType) (value : List Char)

/-- The separators of components. -/
def isSeparator (c : Char) : Bool := c == ',' || c == ';' || c == '+'

/-- A component whose value was read. -/
def component (a : AttributeType) (value : List Char) : Rdn := ⟨a, String.ofList value⟩

section

variable (attributeType : String → Option AttributeType)

/-- After a value: a separator ends the component, and only blanks may come before it. -/
def afterValue (a : AttributeType) (value : List Char) (c : Char) : Option (ParseState × List Rdn) :=
  if isSeparator c then some (.seekTag, [component a value])
  else if isWhiteSpace c then some (.seekComma a value, [])
  else none

/-- The `=` after an attribute name. -/
def afterTag (tag : List Char) : Option (ParseState × List Rdn) :=
  (attributeType (String.ofList tag)).map fun a => (.seekValueStart a, [])

/-- Read one character: the next state and the components that it ended. -/
def parseChar : ParseState → Char → Option (ParseState × List Rdn)
  | .seekTag, c =>
      if isWhiteSpace c then some (.seekTag, [])
      else if isControl c then none
      else some (.seekTagEnd [c], [])
  | .seekTagEnd tag, c =>
      if c = '=' then afterTag attributeType tag
      else if isWhiteSpace c then some (.seekEquals tag, [])
      else if isControl c then none
      else some (.seekTagEnd (tag ++ [c]), [])
  | .seekEquals tag, c =>
      if c = '=' then afterTag attributeType tag
      else if isWhiteSpace c then some (.seekEquals tag, [])
      else none
  | .seekValueStart a, c =>
      if isWhiteSpace c then some (.seekValueStart a, [])
      else if c = '"' then some (.seekEndQuote a [], [])
      else if isSeparator c then some (.seekTag, [component a []])
      else some (.seekValueEnd a [c] [], [])
  | .seekEndQuote a value, c =>
      if c = '"' then some (.maybeEndQuote a value, [])
      else some (.seekEndQuote a (value ++ [c]), [])
  | .maybeEndQuote a value, c =>
      if c = '"' then some (.seekEndQuote a (value ++ ['"']), [])
      else afterValue a value c
  | .seekValueEnd a value blanks, c =>
      if isSeparator c then some (.seekTag, [component a value])
      else if isWhiteSpace c then some (.seekValueEnd a value (blanks ++ [c]), [])
      else some (.seekValueEnd a (value ++ blanks ++ [c]) [], [])
  | .seekComma a value, c => afterValue a value c

/-- The end of the string: an open component is ended, an unfinished one is an error. -/
def finish : ParseState → Option (List Rdn)
  | .seekTag => some []
  | .seekValueStart a => some [component a []]
  | .seekValueEnd a value _ => some [component a value]
  | .maybeEndQuote a value => some [component a value]
  | .seekComma a value => some [component a value]
  | .seekTagEnd _ => none
  | .seekEquals _ => none
  | .seekEndQuote _ _ => none

/-- Read the rest of the string from a state. -/
def parseFrom : ParseState → List Char → Option (List Rdn)
  | st, [] => finish st
  | st, c :: cs =>
      (parseChar attributeType st c).bind fun out =>
        (parseFrom out.1 cs).map fun rest => out.2 ++ rest

/-- `new X500DistinguishedName(s)`; `none` is its `CryptographicException`. -/
def parse (s : String) : Option DistinguishedName := parseFrom attributeType .seekTag s.toList

/-! ## Values that are read back -/

/-- No separator, no blank at either end, no quote at the beginning. -/
def plain (s : String) : Bool :=
  s.toList.all (fun c => !isSeparator c) &&
    s.toList.head?.all (fun c => !isWhiteSpace c && c != '"') &&
    s.toList.getLast?.all fun c => !isWhiteSpace c

variable {attributeType}

theorem parseFrom_cons {st : ParseState} {c : Char} {cs : List Char} {rdns : List Rdn}
    (h : parseFrom attributeType st (c :: cs) = some rdns) :
    ∃ st' out rest, parseChar attributeType st c = some (st', out) ∧
      parseFrom attributeType st' cs = some rest ∧ rdns = out ++ rest := by
  obtain ⟨⟨st', out⟩, h₁, h₂⟩ := Option.bind_eq_some_iff.1 h
  obtain ⟨rest, h₃, rfl⟩ := Option.map_eq_some_iff.1 h₂
  exact ⟨st', out, rest, h₁, h₃, rfl⟩

/-- Inside an unquoted value, a rest without separators that ends in no blank is taken whole. -/
theorem parseFrom_seekValueEnd {a : AttributeType} {cs value blanks : List Char}
    (hsep : ∀ c ∈ cs, isSeparator c = false) (hne : cs ≠ [])
    (hlast : ∀ c, cs.getLast? = some c → isWhiteSpace c = false) :
    parseFrom attributeType (.seekValueEnd a value blanks) cs =
      some [component a (value ++ blanks ++ cs)] := by
  induction cs generalizing value blanks with
  | nil => exact absurd rfl hne
  | cons c cs ih =>
    have hc : isSeparator c = false := hsep c List.mem_cons_self
    rcases cs with _ | ⟨d, ds⟩
    · have hw : isWhiteSpace c = false := hlast c rfl
      simp [parseFrom, parseChar, hc, hw, finish]
    · have ih := fun value blanks => @ih value blanks
        (fun c h => hsep c (List.mem_cons_of_mem _ h)) (by simp)
        (fun c h => hlast c (by simpa [List.getLast?_cons_cons] using h))
      by_cases hw : isWhiteSpace c = true
      · rw [parseFrom]
        simp only [parseChar, hc, hw, if_true, Bool.false_eq_true, if_false, Option.bind_some]
        rw [ih]
        simp
      · rw [parseFrom]
        simp only [parseChar, hc, hw, Bool.false_eq_true, if_false, Option.bind_some]
        rw [ih]
        simp

theorem parseFrom_seekValueStart_of_plain {a : AttributeType} {s : String} (h : plain s = true) :
    parseFrom attributeType (.seekValueStart a) s.toList = some [component a s.toList] := by
  simp only [plain, Bool.and_eq_true, List.all_eq_true, Bool.not_eq_true', Option.all_eq_true,
    bne_iff_ne, ne_eq] at h
  obtain ⟨⟨hsep, hhead⟩, hlast⟩ := h
  rcases hs : s.toList with _ | ⟨c, cs⟩
  · rfl
  · rw [hs] at hsep hhead hlast
    have hc : isSeparator c = false := hsep c List.mem_cons_self
    obtain ⟨hw, hq⟩ := hhead c rfl
    rw [parseFrom]
    simp only [parseChar, hw, hq, hc, Bool.false_eq_true, if_false, Option.bind_some]
    rcases cs with _ | ⟨d, ds⟩
    · rfl
    · rw [parseFrom_seekValueEnd (fun c h => hsep c (List.mem_cons_of_mem _ h)) (by simp)
        (fun c h => hlast c (by simpa [List.getLast?_cons_cons] using h))]
      rfl

/-! ## No value is longer than what was read -/

/-- The characters held in a state that may still become part of a value. -/
def held : ParseState → ℕ
  | .seekTag => 0
  | .seekTagEnd _ => 0
  | .seekEquals _ => 0
  | .seekValueStart _ => 0
  | .seekValueEnd _ value blanks => value.length + blanks.length
  | .seekEndQuote _ value => value.length
  | .maybeEndQuote _ value => value.length
  | .seekComma _ value => value.length

@[simp] theorem length_component (a : AttributeType) (value : List Char) :
    (component a value).value.length = value.length := by
  simp [component]

theorem held_afterValue {a : AttributeType} {value : List Char} {c : Char} {st' : ParseState}
    {out : List Rdn} (h : afterValue a value c = some (st', out)) :
    held st' ≤ value.length ∧ ∀ r ∈ out, r.value.length ≤ value.length := by
  unfold afterValue at h
  split_ifs at h <;> obtain ⟨rfl, rfl⟩ := Prod.mk.inj (Option.some.inj h) <;> simp [held]

theorem held_afterTag {tag : List Char} {st' : ParseState} {out : List Rdn}
    (h : afterTag attributeType tag = some (st', out)) : held st' = 0 ∧ out = [] := by
  obtain ⟨a, -, ha⟩ := Option.map_eq_some_iff.1 h
  obtain ⟨rfl, rfl⟩ := Prod.mk.inj ha
  exact ⟨rfl, rfl⟩

/-- One character adds at most itself to what is held, and ends components no longer than what
was held. -/
theorem held_parseChar {st st' : ParseState} {c : Char} {out : List Rdn}
    (h : parseChar attributeType st c = some (st', out)) :
    held st' ≤ held st + 1 ∧ ∀ r ∈ out, r.value.length ≤ held st := by
  cases st with
  | seekTag =>
    simp only [parseChar] at h
    split_ifs at h <;> obtain ⟨rfl, rfl⟩ := Prod.mk.inj (Option.some.inj h) <;> simp [held]
  | seekTagEnd tag =>
    simp only [parseChar] at h
    split_ifs at h
    · obtain ⟨h₁, rfl⟩ := held_afterTag h
      simp [h₁]
    all_goals obtain ⟨rfl, rfl⟩ := Prod.mk.inj (Option.some.inj h); simp [held]
  | seekEquals tag =>
    simp only [parseChar] at h
    split_ifs at h
    · obtain ⟨h₁, rfl⟩ := held_afterTag h
      simp [h₁]
    · obtain ⟨rfl, rfl⟩ := Prod.mk.inj (Option.some.inj h)
      simp [held]
  | seekValueStart a =>
    simp only [parseChar] at h
    split_ifs at h <;> obtain ⟨rfl, rfl⟩ := Prod.mk.inj (Option.some.inj h) <;>
      simp [held, component]
  | seekValueEnd a value blanks =>
    simp only [parseChar] at h
    split_ifs at h <;> obtain ⟨rfl, rfl⟩ := Prod.mk.inj (Option.some.inj h) <;> simp [held] <;> omega
  | seekEndQuote a value =>
    simp only [parseChar] at h
    split_ifs at h <;> obtain ⟨rfl, rfl⟩ := Prod.mk.inj (Option.some.inj h) <;> simp [held]
  | maybeEndQuote a value =>
    simp only [parseChar] at h
    split_ifs at h
    · obtain ⟨rfl, rfl⟩ := Prod.mk.inj (Option.some.inj h)
      simp [held]
    · have := held_afterValue h
      exact ⟨Nat.le_succ_of_le this.1, this.2⟩
  | seekComma a value =>
    have := @held_afterValue a value c st' out h
    exact ⟨Nat.le_succ_of_le this.1, this.2⟩

theorem length_le_of_parseFrom {cs : List Char} {st : ParseState} {rdns : List Rdn}
    (h : parseFrom attributeType st cs = some rdns) :
    ∀ r ∈ rdns, r.value.length ≤ held st + cs.length := by
  induction cs generalizing st rdns with
  | nil =>
    cases st <;> simp only [parseFrom, finish, Option.some.injEq, reduceCtorEq] at h <;> subst h <;>
      simp [held, component]
  | cons c cs ih =>
    obtain ⟨st', out, rest, hc, hrest, rfl⟩ := parseFrom_cons h
    obtain ⟨hheld, hout⟩ := held_parseChar hc
    intro r hr
    rw [List.length_cons]
    rcases List.mem_append.1 hr with hr | hr
    · have := hout r hr
      omega
    · have := ih hrest r hr
      omega

/-- The rest of an unquoted value has a separator, or a blank at the end, where `blanks` are those
before it. -/
def Loses (blanks cs : List Char) : Prop :=
  (∃ c ∈ cs, isSeparator c = true) ∨ (cs = [] ∧ blanks ≠ []) ∨
    ∃ c, cs.getLast? = some c ∧ isWhiteSpace c = true

theorem loses_of_cons {c : Char} {cs blanks blanks' : List Char} (hsep : ¬ isSeparator c = true)
    (hblank : isWhiteSpace c = true → blanks' ≠ []) (h : Loses blanks (c :: cs)) :
    Loses blanks' cs := by
  rcases h with ⟨d, hd, hdsep⟩ | ⟨hnil, -⟩ | ⟨d, hd, hdws⟩
  · left
    refine ⟨d, ?_, hdsep⟩
    rcases List.mem_cons.1 hd with rfl | hd
    · exact absurd hdsep hsep
    · exact hd
  · cases hnil
  · right
    by_cases hnil : cs = []
    · subst hnil
      obtain rfl : c = d := by simpa using hd
      exact Or.inl ⟨rfl, hblank hdws⟩
    · right
      refine ⟨d, ?_, hdws⟩
      rw [← hd, List.getLast?_cons_of_ne_nil hnil]

/-- What makes an identifier not plain, after its first character. -/
theorem loses_of_not_plain {c : Char} {cs : List Char} {s : String} (hs : plain s = false)
    (hcs : s.toList = c :: cs) (hsep : ¬ isSeparator c = true) (hws : ¬ isWhiteSpace c = true)
    (hquote : c ≠ '"') : Loses [] cs := by
  by_contra hno
  simp only [Loses, not_or, not_exists, not_and, Bool.not_eq_true] at hno hsep hws
  have hplain : plain s = true := by
    simp only [plain, hcs, Bool.and_eq_true, List.all_eq_true, Bool.not_eq_true',
      Option.all_eq_true, bne_iff_ne, ne_eq]
    refine ⟨⟨?_, ?_⟩, ?_⟩
    · intro d hd
      rcases List.mem_cons.1 hd with rfl | hd
      · exact hsep
      · exact hno.1 d hd
    · intro d hd
      obtain rfl : c = d := by simpa using hd
      exact ⟨hws, hquote⟩
    · intro d hd
      by_cases hnil : cs = []
      · subst hnil
        obtain rfl : c = d := by simpa using hd
        exact hws
      · rw [List.getLast?_cons_of_ne_nil hnil] at hd
        exact hno.2.2 d hd
  rw [hplain] at hs
  cases hs

/-- Inside an unquoted value, a separator or a blank at the end is lost. -/
theorem length_lt_of_seekValueEnd {a : AttributeType} {cs value blanks : List Char}
    {rdns : List Rdn}
    (h : parseFrom attributeType (.seekValueEnd a value blanks) cs = some rdns)
    (hcs : Loses blanks cs) :
    ∀ r ∈ rdns, r.value.length < value.length + blanks.length + cs.length := by
  induction cs generalizing value blanks rdns with
  | nil =>
    have hblanks : blanks ≠ [] := by simpa [Loses] using hcs
    have hpos := List.length_pos_iff.2 hblanks
    simp only [parseFrom, finish, Option.some.injEq] at h
    subst h
    simp only [List.mem_singleton, forall_eq, length_component]
    omega
  | cons c cs ih =>
    obtain ⟨st', out, rest, hchar, hrest, rfl⟩ := parseFrom_cons h
    intro r hr
    simp only [parseChar] at hchar
    split_ifs at hchar with hsep hws
    · -- a separator: the value is ended, the rest starts again from nothing
      obtain ⟨rfl, rfl⟩ := Prod.mk.inj (Option.some.inj hchar)
      rw [List.length_cons]
      rcases List.mem_append.1 hr with hr | hr
      · rw [List.mem_singleton.1 hr, length_component]
        omega
      · have := length_le_of_parseFrom hrest r hr
        simp only [held] at this
        omega
    · -- a blank: it is held back
      obtain ⟨rfl, rfl⟩ := Prod.mk.inj (Option.some.inj hchar)
      have := ih hrest (loses_of_cons hsep (by simp) hcs) r hr
      simp only [List.length_append, List.length_cons, List.length_nil] at this ⊢
      omega
    · -- part of the value
      obtain ⟨rfl, rfl⟩ := Prod.mk.inj (Option.some.inj hchar)
      have := ih hrest (loses_of_cons hsep (fun h => absurd h hws) hcs) r hr
      simp only [List.length_append, List.length_cons, List.length_nil] at this ⊢
      omega

/-- A value that is not plain never comes back: every value that is read is shorter. -/
theorem length_lt_of_not_plain {a : AttributeType} {s : String} (hs : plain s = false)
    {rdns : List Rdn} (h : parseFrom attributeType (.seekValueStart a) s.toList = some rdns) :
    ∀ r ∈ rdns, r.value.length < s.length := by
  rw [← String.length_toList]
  rcases hcs : s.toList with _ | ⟨c, cs⟩
  · simp [plain, hcs] at hs
  · rw [hcs] at h
    obtain ⟨st', out, rest, hchar, hrest, rfl⟩ := parseFrom_cons h
    intro r hr
    simp only [parseChar] at hchar
    split_ifs at hchar with hws hquote hsep
    · obtain ⟨rfl, rfl⟩ := Prod.mk.inj (Option.some.inj hchar)
      have := length_le_of_parseFrom hrest r hr
      simp only [held, List.length_cons] at this ⊢
      omega
    · obtain ⟨rfl, rfl⟩ := Prod.mk.inj (Option.some.inj hchar)
      have := length_le_of_parseFrom hrest r hr
      simp only [held, List.length_cons, List.length_nil] at this ⊢
      omega
    · obtain ⟨rfl, rfl⟩ := Prod.mk.inj (Option.some.inj hchar)
      rcases List.mem_append.1 hr with hr | hr
      · rw [List.mem_singleton.1 hr, length_component]
        simp
      · have := length_le_of_parseFrom hrest r hr
        simp only [held, List.length_cons] at this ⊢
        omega
    · obtain ⟨rfl, rfl⟩ := Prod.mk.inj (Option.some.inj hchar)
      have hloses := loses_of_not_plain hs hcs hsep hws hquote
      have := length_lt_of_seekValueEnd hrest hloses r hr
      simp only [List.length_cons, List.length_nil] at this ⊢
      omega

/-! ## The subject of a user certificate -/

/-- The attribute of the component that is being read. -/
def attrOf : ParseState → Option AttributeType
  | .seekTag => none
  | .seekTagEnd _ => none
  | .seekEquals _ => none
  | .seekValueStart a => some a
  | .seekValueEnd a _ _ => some a
  | .seekEndQuote a _ => some a
  | .maybeEndQuote a _ => some a
  | .seekComma a _ => some a

theorem attrOf_parseChar {st st' : ParseState} {c : Char} {out : List Rdn} {a : AttributeType}
    (h : parseChar attributeType st c = some (st', out)) (ha : attrOf st = some a) :
    (attrOf st' = some a ∧ out = []) ∨ ∃ value, out = [component a value] := by
  cases st <;> simp only [attrOf, Option.some.injEq, reduceCtorEq] at ha <;> subst ha <;>
    simp only [parseChar, afterValue] at h <;> split_ifs at h <;>
    obtain ⟨rfl, rfl⟩ := Prod.mk.inj (Option.some.inj h) <;> simp [attrOf]

/-- The component that is being read comes first in the result. -/
theorem exists_component_of_parseFrom {cs : List Char} {st : ParseState} {rdns : List Rdn}
    {a : AttributeType} (h : parseFrom attributeType st cs = some rdns)
    (ha : attrOf st = some a) : ∃ value rest, rdns = component a value :: rest := by
  induction cs generalizing st rdns with
  | nil =>
    cases st <;> simp only [attrOf, Option.some.injEq, reduceCtorEq] at ha <;> subst ha <;>
      simp only [parseFrom, finish, Option.some.injEq, reduceCtorEq] at h <;> subst h <;>
      exact ⟨_, [], rfl⟩
  | cons c cs ih =>
    obtain ⟨st', out, rest, hchar, hrest, rfl⟩ := parseFrom_cons h
    rcases attrOf_parseChar hchar ha with ⟨ha', rfl⟩ | ⟨value, rfl⟩
    · exact ih hrest ha'
    · exact ⟨value, rest, rfl⟩

variable (hCN : attributeType "CN" = some .commonName)
include hCN

theorem parse_CN (id : String) : parse attributeType ("CN=" ++ id) =
    parseFrom attributeType (.seekValueStart .commonName) id.toList := by
  have hlist : ("CN=" ++ id).toList = 'C' :: 'N' :: '=' :: id.toList := by
    rw [String.toList_append]
    rfl
  have htag : attributeType (String.ofList ['C', 'N']) = some .commonName := hCN
  have hC : isWhiteSpace 'C' = false ∧ isControl 'C' = false := by decide
  have hN : isWhiteSpace 'N' = false ∧ isControl 'N' = false := by decide
  rw [parse, hlist]
  simp [parseFrom, parseChar, afterTag, htag, hC, hN, Function.comp_def]

/-- A plain identifier is the one common name of the subject. -/
theorem parse_commonName_of_plain {id : String} (h : plain id = true) :
    parse attributeType ("CN=" ++ id) = some [⟨.commonName, id⟩] := by
  rw [parse_CN hCN, parseFrom_seekValueStart_of_plain h]
  simp [component]

theorem commonNames_ne_nil {id : String} {dn : DistinguishedName}
    (h : parse attributeType ("CN=" ++ id) = some dn) : commonNames dn ≠ [] := by
  rw [parse_CN hCN] at h
  obtain ⟨value, rest, rfl⟩ := exists_component_of_parseFrom h rfl
  simp [commonNames, component]

/-- Another identifier is no common name of its subject. -/
theorem not_mem_commonNames {id : String} (hid : plain id = false) {dn : DistinguishedName}
    (h : parse attributeType ("CN=" ++ id) = some dn) : id ∉ commonNames dn := by
  rw [parse_CN hCN] at h
  intro hmem
  obtain ⟨r, hr, hv⟩ := List.mem_map.1 hmem
  have := length_lt_of_not_plain hid h r (List.mem_filter.1 hr).1
  rw [hv] at this
  exact absurd this (Nat.lt_irrefl _)

end

end X500

end IMoviesCA
