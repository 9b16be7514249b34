import Spectra.Dbinspect.UrlPassword

/-! Connection strings that differ in their password only. -/
namespace Spectra.Dbinspect
open List Library GoBytes GoUrl

variable {parseHost : Bytes → Bytes → Option Bytes}

/-- A keyword string with a password setting, with a hole for its value. -/
structure KeywordForm where
  before : Bytes
  /-- The white space before the equals sign. -/
  gapLeft : Bytes
  /-- The white space after the equals sign. -/
  gapRight : Bytes
  after : Bytes
  before_end : ∀ b ∈ before.getLast?, isSpace b = true
  gapLeft_space : ∀ b ∈ gapLeft, isSpace b = true
  gapRight_space : ∀ b ∈ gapRight, isSpace b = true
  after_head : ∀ b ∈ after.head?, isSpace b = true

/-- What may follow an opening quote: a text in which quotes are escaped, and the closing quote. -/
def quotedRest : Bytes → Bool
  | [] => false
  | b :: s =>
    if b = byte '\\' then
      match s with
      | [] => false
      | _ :: s => quotedRest s
    else if b = byte '\'' then decide (s = [])
    else quotedRest s

/-- A value without quotes: white space in it is escaped. -/
def plainRest : Bytes → Bool
  | [] => true
  | b :: s =>
    if b = byte '\\' then
      match s with
      | [] => false
      | _ :: s => plainRest s
    else !isSpace b && plainRest s

def keywordValue : Bytes → Bool
  | [] => false
  | b :: s => if b = byte '\'' then quotedRest s else plainRest (b :: s)

namespace KeywordForm

variable {f : KeywordForm} {p q : Bytes}

def setting (f : KeywordForm) (p : Bytes) : Bytes :=
  ascii "password" ++ (f.gapLeft ++ (byte '=' :: (f.gapRight ++ p)))

def fill (f : KeywordForm) (p : Bytes) : Bytes := f.before ++ (f.setting p ++ f.after)

theorem fields_fill (f : KeywordForm) (p : Bytes) :
    fields (f.fill p) = fields f.before ++ (fields (f.setting p) ++ fields f.after) := by
  have hafter : fields (f.setting p ++ f.after) = fields (f.setting p) ++ fields f.after := by
    cases h : f.after with
    | nil => simp [fields, fieldsFrom, flush]
    | cons b s =>
      have hb : isSpace b = true := f.after_head b (by rw [h]; rfl)
      rw [fields_append_cons hb]
      exact congrArg _ (fields_append_cons hb [] s).symm
  rw [fill, ← hafter]
  cases h : f.before.getLast? with
  | none =>
    rw [getLast?_eq_none_iff.mp h]
    rfl
  | some b =>
    have hb : isSpace b = true := f.before_end b h
    obtain ⟨s, hs⟩ := getLast?_eq_some_iff.mp h
    rw [hs, append_assoc, singleton_append, fields_append_cons hb, fields_append_cons hb s []]
    simp [fields, fieldsFrom, flush]

theorem redactDSN_fill_eq (hp : contains (f.fill p) (ascii "://") = false) :
    redactDSN parseHost (f.fill p) =
      (ascii " ").intercalate ((fields f.before).map redactField ++
        ((fields (f.setting p)).map redactField ++ (fields f.after).map redactField)) := by
  have hne : f.fill p ≠ [] := by simp [fill, setting]
  have hequals : contains (f.fill p) (ascii "=") = true := by
    rw [contains_iff]
    exact ⟨f.before ++ ascii "password" ++ f.gapLeft, f.gapRight ++ p ++ f.after, by
      simp [fill, setting, ascii, byte]⟩
  rw [redactDSN, if_neg hne, if_neg (Bool.eq_false_iff.mp hp), if_pos hequals, redactKeywordDSN,
    fields_fill, map_append, map_append]

theorem redactDSN_fill_iff_of_fields (hp : contains (f.fill p) (ascii "://") = false)
    (hq : contains (f.fill q) (ascii "://") = false) {shown : List Bytes} {x y : Bytes}
    (hx : (fields (f.setting p)).map redactField = shown ++ [x])
    (hy : (fields (f.setting q)).map redactField = shown ++ [y]) :
    redactDSN parseHost (f.fill p) = redactDSN parseHost (f.fill q) ↔ x = y := by
  have hassoc (z : Bytes) : (fields f.before).map redactField ++
      ((shown ++ [z]) ++ (fields f.after).map redactField) =
      ((fields f.before).map redactField ++ shown) ++ z :: (fields f.after).map redactField := by
    simp
  rw [redactDSN_fill_eq hp, redactDSN_fill_eq hq, hx, hy, hassoc, hassoc]
  exact intercalate_append_cons_inj

theorem redactField_password (p : Bytes) :
    redactField (ascii "password" ++ byte '=' :: p) = ascii "password=" ++ redacted := by
  rfl

theorem fields_password (hp : hasSpace p = false) :
    fields (ascii "password" ++ byte '=' :: p) = [ascii "password" ++ byte '=' :: p] := by
  have hsplit : ascii "password" ++ byte '=' :: p = ascii "password=" ++ p := rfl
  refine fields_of_hasSpace_eq_false (by simp) ?_
  rw [hsplit, hasSpace_append_of_ascii (by decide), hp]

theorem setting_of_no_gaps (hleft : f.gapLeft = []) (hright : f.gapRight = []) (p : Bytes) :
    f.setting p = ascii "password" ++ byte '=' :: p := by
  rw [setting, hleft, hright, nil_append, nil_append]

theorem redactDSN_fill (hleft : f.gapLeft = []) (hright : f.gapRight = [])
    (hp : hasSpace p = false) (hq : hasSpace q = false) (hpurl : contains (f.fill p) (ascii "://") = false)
    (hqurl : contains (f.fill q) (ascii "://") = false) :
    redactDSN parseHost (f.fill p) = redactDSN parseHost (f.fill q) := by
  rw [redactDSN_fill_eq hpurl, redactDSN_fill_eq hqurl, setting_of_no_gaps hleft hright,
    setting_of_no_gaps hleft hright, fields_password hp, fields_password hq]
  simp [redactField_password]

/-- A value that is a field of its own and does not look like a setting. -/
structure Word (p : Bytes) : Prop where
  ne_nil : p ≠ []
  space : hasSpace p = false
  equals : byte '=' ∉ p

theorem Word.map_redactField (hp : Word p) : (fields p).map redactField = [p] := by
  rw [fields_of_hasSpace_eq_false hp.ne_nil hp.space, map_cons, map_nil, redactField,
    cut_singleton_eq_none_iff.mpr hp.equals]

theorem map_redactField_equals (hp : hasSpace p = false) :
    (fields (byte '=' :: p)).map redactField = [byte '=' :: p] := by
  have hspace : hasSpace (byte '=' :: p) = false := by
    rw [← singleton_append, hasSpace_append_of_ascii (by decide), hp]
  rw [fields_of_hasSpace_eq_false (cons_ne_nil _ _) hspace, map_cons, redactField]
  rfl

/-- With white space around the equals sign the value is shown: the results are equal only for
equal values. -/
theorem redactDSN_fill_iff_of_gap (hgap : f.gapLeft ≠ [] ∨ f.gapRight ≠ []) (hp : Word p)
    (hq : Word q) (hpurl : contains (f.fill p) (ascii "://") = false)
    (hqurl : contains (f.fill q) (ascii "://") = false) :
    redactDSN parseHost (f.fill p) = redactDSN parseHost (f.fill q) ↔ p = q := by
  have hright := f.gapRight_space
  cases hl : f.gapLeft with
  | nil =>
    cases hr : f.gapRight with
    | nil => exact absurd hgap (by simp [hl, hr])
    | cons b gap =>
      rw [hr, forall_mem_cons] at hright
      have hshown (p : Bytes) (hp : Word p) : (fields (f.setting p)).map redactField =
          [ascii "password=" ++ redacted] ++ [p] := by
        have hsetting : f.setting p = (ascii "password" ++ [byte '=']) ++ b :: (gap ++ p) := by
          simp [setting, hl, hr]
        rw [hsetting, fields_append_cons hright.1, fields_append_of_isSpace hright.2,
          map_append, hp.map_redactField, fields_password rfl, map_cons, map_nil,
          redactField_password]
      exact redactDSN_fill_iff_of_fields hpurl hqurl (hshown p hp) (hshown q hq)
  | cons b gap =>
    have hleft := f.gapLeft_space
    rw [hl, forall_mem_cons] at hleft
    have hsplit (p : Bytes) : (fields (f.setting p)).map redactField =
        [ascii "password"] ++ (fields (byte '=' :: (f.gapRight ++ p))).map redactField := by
      have hkeyword : (fields (ascii "password")).map redactField = [ascii "password"] := by decide
      rw [setting, hl, cons_append, fields_append_cons hleft.1, fields_append_of_isSpace hleft.2, map_append, hkeyword]
    cases hr : f.gapRight with
    | nil =>
      have hshown (p : Bytes) (hp : Word p) : (fields (f.setting p)).map redactField =
          [ascii "password"] ++ [byte '=' :: p] := by
        rw [hsplit, hr, nil_append, map_redactField_equals hp.space]
      rw [redactDSN_fill_iff_of_fields hpurl hqurl (hshown p hp) (hshown q hq), cons_inj_right]
    | cons c gap' =>
      rw [hr, forall_mem_cons] at hright
      have hshown (p : Bytes) (hp : Word p) : (fields (f.setting p)).map redactField =
          [ascii "password", [byte '=']] ++ [p] := by
        have hvalue : fields (byte '=' :: (c :: gap' ++ p)) =
            fields [byte '='] ++ fields (gap' ++ p) := fields_append_cons hright.1 [byte '='] _
        rw [hsplit, hr, hvalue, fields_append_of_isSpace hright.2, map_append, hp.map_redactField]
        rfl
      exact redactDSN_fill_iff_of_fields hpurl hqurl (hshown p hp) (hshown q hq)

/-- Of a value with white space, what follows it is shown. -/
theorem redactDSN_fill_iff_of_space (hleft : f.gapLeft = []) (hright : f.gapRight = [])
    {b c : UInt8} (hb : isSpace b = true) (hc : isSpace c = true) {first last first' last' : Bytes}
    (hfirst : hasSpace first = false) (hfirst' : hasSpace first' = false) (hlast : Word last) (hlast' : Word last')
    (hpurl : contains (f.fill (first ++ b :: last)) (ascii "://") = false)
    (hqurl : contains (f.fill (first' ++ c :: last')) (ascii "://") = false) :
    redactDSN parseHost (f.fill (first ++ b :: last)) =
      redactDSN parseHost (f.fill (first' ++ c :: last')) ↔ last = last' := by
  have hshown (b : UInt8) (hb : isSpace b = true) (first last : Bytes)
      (hfirst : hasSpace first = false) (hlast : Word last) :
      (fields (f.setting (first ++ b :: last))).map redactField =
        [ascii "password=" ++ redacted] ++ [last] := by
    have hsetting : f.setting (first ++ b :: last) =
        (ascii "password" ++ byte '=' :: first) ++ b :: last := by
      rw [setting_of_no_gaps hleft hright]
      simp
    rw [hsetting, fields_append_cons hb, map_append, hlast.map_redactField,
      fields_password hfirst, map_cons, map_nil, redactField_password]
  exact redactDSN_fill_iff_of_fields hpurl hqurl (hshown b hb first last hfirst hlast)
    (hshown c hc first' last' hfirst' hlast')

end KeywordForm

/-- A connection string with a hole for its password. -/
inductive Form
  | userinfo (f : UserinfoForm)
  | query (f : QueryForm)
  | keyword (f : KeywordForm)

namespace Form

def fill : Form → Bytes → Bytes
  | userinfo f => f.fill
  | query f => f.fill
  | keyword f => f.fill

/-- The password texts with which a form is a valid connection string. -/
def Accepts (parseHost : Bytes → Bytes → Option Bytes) : Form → Bytes → Prop
  | userinfo _, p => UserinfoPassword p
  | query f, p => QueryPassword p ∧ (parse parseHost (f.fill p)).isSome
  | keyword _, p => keywordValue p = true

/-- URLs that have the password before the host, and keyword strings without `://` that have it
right after the equals sign, without white space. -/
def Hides : Form → Bytes → Prop
  | userinfo _, _ => True
  | query _, _ => False
  | keyword f, p => f.gapLeft = [] ∧ f.gapRight = [] ∧ hasSpace p = false ∧
      contains (f.fill p) (ascii "://") = false

end Form

/-- Strings that differ in a hidden password only have one result. In the other forms the password
is told apart: in a query by all of its text, with white space around the equals sign by all of its
text, and a value with white space by what follows it. -/
theorem redactDSN_hides_password (parseHost : Bytes → Bytes → Option Bytes) :
    (∀ (f : Form) (p q : Bytes), f.Accepts parseHost p → f.Accepts parseHost q →
      f.Hides p → f.Hides q →
      redactDSN parseHost (f.fill p) = redactDSN parseHost (f.fill q)) ∧
    (∀ (f : QueryForm) (p q : Bytes), (Form.query f).Accepts parseHost p →
      (Form.query f).Accepts parseHost q → byte '%' ∉ p → byte '%' ∉ q →
      (redactDSN parseHost (f.fill p) = redactDSN parseHost (f.fill q) ↔ p = q)) ∧
    (∀ (f : KeywordForm) (p q : Bytes), f.gapLeft ≠ [] ∨ f.gapRight ≠ [] →
      KeywordForm.Word p → KeywordForm.Word q → contains (f.fill p) (ascii "://") = false →
      contains (f.fill q) (ascii "://") = false →
      (redactDSN parseHost (f.fill p) = redactDSN parseHost (f.fill q) ↔ p = q)) ∧
    (∀ (f : KeywordForm) (b c : UInt8) (first last first' last' : Bytes),
      f.gapLeft = [] → f.gapRight = [] → isSpace b = true → isSpace c = true →
      hasSpace first = false → hasSpace first' = false →
      KeywordForm.Word last → KeywordForm.Word last' →
      contains (f.fill (first ++ b :: last)) (ascii "://") = false →
      contains (f.fill (first' ++ c :: last')) (ascii "://") = false →
      (redactDSN parseHost (f.fill (first ++ b :: last)) =
        redactDSN parseHost (f.fill (first' ++ c :: last')) ↔ last = last')) := by
  refine ⟨fun f p q hp hq hhp hhq => ?_, fun f p q hp hq hpp hqp => ?_,
    fun f p q hgap hp hq hpurl hqurl => ?_,
    fun f b c first last first' last' hleft hright hb hc hf hf' hl hl' hpurl hqurl => ?_⟩
  · cases f with
    | userinfo f => exact UserinfoForm.redactDSN_fill hp hq
    | query f => exact hhp.elim
    | keyword f =>
      obtain ⟨hleft, hright, hpspace, hpurl⟩ := hhp
      obtain ⟨-, -, hqspace, hqurl⟩ := hhq
      exact KeywordForm.redactDSN_fill hleft hright hpspace hqspace hpurl hqurl
  · exact QueryForm.redactDSN_fill_iff hp.1 hq.1 ⟨hpp, hqp⟩ ⟨hp.2, hq.2⟩
  · exact KeywordForm.redactDSN_fill_iff_of_gap hgap hp hq hpurl hqurl
  · exact KeywordForm.redactDSN_fill_iff_of_space hleft hright hb hc hf hf' hl hl' hpurl hqurl

def plainForm : KeywordForm where
  before := ascii "host=x "
  gapLeft := []
  gapRight := []
  after := []
  before_end := by
    intro b hb
    cases hb
    rfl
  gapLeft_space := nofun
  gapRight_space := nofun
  after_head := nofun

def spacedForm : KeywordForm where
  before := ascii "host=x "
  gapLeft := [32]
  gapRight := [32]
  after := []
  before_end := by
    intro b hb
    cases hb
    rfl
  gapLeft_space := List.forall_mem_singleton.mpr rfl
  gapRight_space := List.forall_mem_singleton.mpr rfl
  after_head := nofun

def parameterForm : QueryForm where
  location := ascii "postgres://db/orders"
  query := []
  rest := []
  location_url := by decide
  location_mark := by decide
  location_hash := by decide
  query_hash := by decide
  query_end := nofun
  rest_head := nofun

theorem redactDSN_hides_password_plain :
    plainForm.fill (ascii "s1") = ascii "host=x password=s1" ∧
      redactDSN (fun _ host => some host) (plainForm.fill (ascii "s1")) =
        redactDSN (fun _ host => some host) (plainForm.fill (ascii "s2")) :=
  ⟨by decide, (redactDSN_hides_password _).1 (.keyword plainForm) _ _
    (show keywordValue (ascii "s1") = true by decide)
    (show keywordValue (ascii "s2") = true by decide)
    ⟨rfl, rfl, by decide, by decide⟩ ⟨rfl, rfl, by decide, by decide⟩⟩

/-- White space around the equals sign, white space in a quoted value, `://` in a quoted value, and
a parameter of a URL each tell two passwords apart. -/
theorem password_forms_are_shown :
    (keywordValue (ascii "s1") = true ∧ keywordValue (ascii "s2") = true ∧
      redactDSN (fun _ host => some host) (spacedForm.fill (ascii "s1")) ≠
        redactDSN (fun _ host => some host) (spacedForm.fill (ascii "s2"))) ∧
    (keywordValue (ascii "'a b'") = true ∧ keywordValue (ascii "'a c'") = true ∧
      redactDSN (fun _ host => some host) (plainForm.fill (ascii "'a b'")) ≠
        redactDSN (fun _ host => some host) (plainForm.fill (ascii "'a c'"))) ∧
    (keywordValue (ascii "'/b://c'") = true ∧ keywordValue (ascii "'/b://d'") = true ∧
      redactDSN (fun _ host => some host) (plainForm.fill (ascii "'/b://c'")) ≠
        redactDSN (fun _ host => some host) (plainForm.fill (ascii "'/b://d'"))) ∧
    ((parse (fun _ host => some host) (parameterForm.fill (ascii "s1"))).isSome = true ∧
      (parse (fun _ host => some host) (parameterForm.fill (ascii "s2"))).isSome = true ∧
      redactDSN (fun _ host => some host) (parameterForm.fill (ascii "s1")) ≠
        redactDSN (fun _ host => some host) (parameterForm.fill (ascii "s2"))) := by
  decide +kernel

end Spectra.Dbinspect
