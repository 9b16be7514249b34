import Spectra.Library.GoJson
import Spectra.Library.JavaText

/-! How the names of MBeans, attributes and operations travel from the Go client to the Java agent. -/
namespace Spectra.Jvm
open Library TextSearch GoJson JavaText List Option

/-- The pairs given to `strings.NewReplacer`. -/
def queryEscapes : List (Char × List Char) :=
  [('%', ['%', '2', '5']), (' ', ['%', '2', '0']), ('&', ['%', '2', '6']), ('=', ['%', '3', 'D']),
    ('?', ['%', '3', 'F']), ('#', ['%', '2', '3']), ('+', ['%', '2', 'B']), (',', ['%', '2', 'C']),
    (':', ['%', '3', 'A']), (quotation, ['%', '2', '2'])]

def queryEscape (c : Char) : List Char := (queryEscapes.lookup c).getD [c]

def urlQueryEscape (s : String) : List Char := s.toList.flatMap queryEscape

def attributePath (mbean attr : String) : List Char :=
  "/mbean-attribute?name=".toList ++ urlQueryEscape mbean ++ "&attribute=".toList ++
    urlQueryEscape attr

/-- The body that `InvokeMBeanOperation` posts to `/mbean-operation`. -/
def operationBody (mbean operation : String) : String :=
  marshalMap (((∅ : Std.ExtTreeMap String String).insert "name" mbean).insert "operation" operation)

/-- The path and the query of a request, as `parseHTTP` takes them apart. -/
def parseTarget (target : List Char) : List Char × List Char :=
  match splitTwo '?' target with
  | (path, some query) => (path, query)
  | (path, none) => (path, [])

variable (malformed : List UInt8 → List Char)

/-- One part of the query; the value of a part without an equals sign is empty. -/
def queryPart (out : Std.ExtTreeMap String String) (part : List Char) :
    Option (Std.ExtTreeMap String String) := do
  let (key, value) := splitTwo '=' part
  let key ← decode malformed key
  let value ← match value with
    | some value => decode malformed value
    | none => some []
  pure (out.insert (String.ofList key) (String.ofList value))

/-- The method `query` of the agent; `none` stands for the exception of a malformed escape. -/
def query (raw : List Char) : Option (Std.ExtTreeMap String String) :=
  if raw = [] then some ∅ else (split '&' raw).foldlM (queryPart malformed) ∅

/-- The loop of `jsonField`: a backslash only lets the next character through. -/
def readString : Bool → List Char → List Char
  | _, [] => []
  | true, c :: cs => c :: readString false cs
  | false, c :: cs =>
    if c = backslash then readString true cs
    else if c = quotation then []
    else c :: readString false cs

def needle (field : String) : List Char := quotation :: (field.toList ++ [quotation])

/-- What follows the colon after the first occurrence of a quoted name. -/
def afterField (raw : List Char) (field : String) : Option (List Char) :=
  (afterFirst (needle field) raw).bind (afterFirst [':'])

def jsonField (raw field : String) : String :=
  match (afterField raw.toList field).bind (afterFirst [quotation]) with
  | none => ""
  | some cs => String.ofList (readString false cs)

section
variable {malformed}

private theorem queryEscape_cases (c : Char) :
    (queryEscape c = [c] ∧ c ≠ '%' ∧ c ≠ '+') ∨
      ∃ a b v, queryEscape c = ['%', a, b] ∧ parsePair a b = some v ∧ String.utf8EncodeChar c = [v] := by
  rw [queryEscape]
  cases hlookup : queryEscapes.lookup c with
  | none =>
    have hpercent : ('%', ['%', '2', '5']) ∈ queryEscapes := by decide
    have hplus : ('+', ['%', '2', 'B']) ∈ queryEscapes := by decide
    exact .inl ⟨rfl, ne_of_lookup hlookup hpercent, ne_of_lookup hlookup hplus⟩
  | some escape =>
    have htable : ∀ x ∈ queryEscapes, ∃ a b v, x.2 = ['%', a, b] ∧ parsePair a b = some v ∧
        String.utf8EncodeChar x.1 = [v] := by
      simp only [queryEscapes, forall_mem_cons, not_mem_nil, false_implies, implies_true, and_true]
      and_intros <;> exact ⟨_, _, _, rfl, rfl, rfl⟩
    exact .inr (htable (c, escape) (mem_of_lookup hlookup))

theorem notMem_urlQueryEscape (s : String) : '&' ∉ urlQueryEscape s := by
  have htable : ∀ x ∈ queryEscapes, '&' ∉ x.2 := by decide
  intro hmem
  obtain ⟨c, -, hc⟩ := mem_flatMap.mp hmem
  rw [queryEscape] at hc
  cases hlookup : queryEscapes.lookup c with
  | none =>
    rw [hlookup] at hc
    obtain rfl : '&' = c := by simpa using hc
    exact absurd hlookup (by decide)
  | some escape =>
    rw [hlookup] at hc
    exact htable (c, escape) (mem_of_lookup hlookup) hc

theorem decode_urlQueryEscape (s : String) : decode malformed (urlQueryEscape s) = some s.toList :=
  decode_flatMap queryEscape_cases s.toList

theorem queryPart_eq (out : Std.ExtTreeMap String String) {key : String}
    (hkey : urlQueryEscape key = key.toList) (hequals : '=' ∉ key.toList) (s : String) :
    queryPart malformed out (key.toList ++ '=' :: urlQueryEscape s) = some (out.insert key s) := by
  have hdecode := @decode_urlQueryEscape malformed key
  rw [hkey] at hdecode
  rw [queryPart, splitTwo_append_cons hequals]
  simp [hdecode, decode_urlQueryEscape]

private theorem path_eq (mbean attr : List Char) :
    "/mbean-attribute?name=".toList ++ mbean ++ "&attribute=".toList ++ attr =
      "/mbean-attribute".toList ++ '?' ::
        (("name".toList ++ '=' :: mbean) ++ '&' :: ("attribute".toList ++ '=' :: attr)) := by
  simp

private theorem attributePath_eq (mbean attr : String) :
    attributePath mbean attr = "/mbean-attribute".toList ++ '?' ::
      (("name".toList ++ '=' :: urlQueryEscape mbean) ++ '&' :: ("attribute".toList ++ '=' :: urlQueryEscape attr)) :=
  path_eq (urlQueryEscape mbean) (urlQueryEscape attr)

/-- The agent reads from the path what the client wrote into it. -/
theorem query_attributePath (mbean attr : String) :
    query malformed (parseTarget (attributePath mbean attr)).2 =
      some (((∅ : Std.ExtTreeMap String String).insert "name" mbean).insert "attribute" attr) := by
  have hname : '&' ∉ "name".toList ++ '=' :: urlQueryEscape mbean := by
    simp [notMem_urlQueryEscape]
  have hattr : '&' ∉ "attribute".toList ++ '=' :: urlQueryEscape attr := by
    simp [notMem_urlQueryEscape]
  rw [attributePath_eq, parseTarget, splitTwo_append_cons (by decide), query, if_neg (by simp),
    split_append_cons hname hattr (by simp), foldlM_cons,
    queryPart_eq _ (by decide) (by decide), bind_eq_bind, bind_some,
    foldlM_cons, queryPart_eq _ (by decide) (by decide), bind_eq_bind,
    bind_some, foldlM_nil, Option.pure_def]

end

section

/-- What the agent makes of one character of a string. -/
def heard (c : Char) : List Char := (escapeOf c).getD [c]

private theorem heard_ne_nil (c : Char) : heard c ≠ [] := by
  rw [heard]
  rcases escaped_cases c with ⟨hnone, -⟩ | ⟨d, rest, hsome, -⟩
  · rw [hnone]
    exact nofun
  · rw [hsome]
    exact nofun

private theorem heard_eq_iff (c : Char) : heard c = [c] ↔ Literal c := by
  have htable : ∀ x ∈ shortEscapes, x.2 = x.1 ↔ Literal x.1 := by decide
  rw [heard]
  rcases escapeOf_cases c with ⟨d, hmem, hd⟩ | ⟨digits, hu, hne, -, hnot⟩ | ⟨hnone, -, hlit⟩
  · rw [hd, getD_some, singleton_inj]
    exact htable (c, d) hmem
  · rw [hu]
    refine iff_of_false (fun he => ?_) hnot
    exact hne (cons.inj he).2
  · rw [hnone]
    exact iff_of_true rfl hlit

theorem readString_plain {text : List Char} (h : ∀ c ∈ text, Plain c) (rest : List Char) :
    readString false (text ++ rest) = text ++ readString false rest := by
  induction text with
  | nil => rfl
  | cons c text ih =>
    obtain ⟨⟨hback, hquote⟩, htext⟩ := forall_mem_cons.mp h
    rw [cons_append, readString, if_neg hback, if_neg hquote, ih htext, cons_append]

private theorem readString_content (s : String) (rest : List Char) :
    readString false (content s ++ quotation :: rest) = s.toList.flatMap heard := by
  rw [content]
  induction s.toList with
  | nil =>
    rw [flatMap_nil, nil_append, readString, if_neg (by decide), if_pos rfl,
      flatMap_nil]
  | cons c text ih =>
    rw [flatMap_cons, flatMap_cons, append_assoc]
    rcases escaped_cases c with ⟨hnone, hc, hplain⟩ | ⟨d, digits, hsome, hc, hplain⟩
    · rw [hc, readString_plain (by simpa using hplain), ih, heard, hnone]
      rfl
    · rw [hc, cons_append, cons_append, readString, readString, readString_plain hplain, ih, heard, hsome]
      rfl

variable (mbean : String) (operation : String)

theorem operationBody_toList :
    (operationBody mbean operation).toList =
      '\x7b' :: (appendString "name" ++ ':' :: ((quotation :: content mbean) ++ quotation :: ',' ::
        (appendString "operation" ++ ':' :: quotation :: (content operation ++ quotation :: ['\x7d'])))) := by
  have hmap : (((∅ : Std.ExtTreeMap String String).insert "name" mbean).insert "operation"
      operation).toList = [("name", mbean), ("operation", operation)] := rfl
  rw [operationBody, marshalMap, hmap]
  simp [appendString]

theorem needle_ne_nil (field : String) : needle field ≠ [] := cons_ne_nil _ _

variable (rest : List Char)

theorem afterColon : afterFirst [':'] (':' :: rest) = some rest :=
  afterFirst_append_self (cons_ne_nil _ _) rest

private theorem afterField_name :
    afterField (operationBody mbean operation).toList "name" =
      some (quotation :: (content mbean ++ quotation :: ',' :: (appendString "operation" ++ ':' ::
        quotation :: (content operation ++ quotation :: ['\x7d'])))) := by
  have hname : appendString "name" = needle "name" := by decide
  rw [operationBody_toList, hname, afterField, afterFirst_cons_of_not_isPrefixOf (by rfl),
    afterFirst_append_self (needle_ne_nil _), bind_some, afterColon, cons_append]

private theorem skip_name :
    afterFirst (needle "operation") ('\x7b' :: (appendString "name" ++ ':' :: rest)) =
      afterFirst (needle "operation") rest := by
  have hname : appendString "name" = [quotation, 'n', 'a', 'm', 'e', quotation] := by decide
  simp only [hname, cons_append, nil_append]
  iterate 8 rw [afterFirst_cons_of_not_isPrefixOf (by rfl)]

private theorem afterFirst_needle :
    afterFirst (needle "operation") ((quotation :: content mbean) ++ quotation :: rest) =
        some rest ∨
      afterFirst (needle "operation") ((quotation :: content mbean) ++ quotation :: rest) =
        afterFirst (needle "operation") (quotation :: rest) :=
  afterFirst_quoted (by decide) (by decide) (by decide) (quotesEscaped_content mbean quotation) rest

/-- The name of the second field may occur at the end of the first value, but then the second
field comes next. -/
theorem afterField_operation :
    afterField (operationBody mbean operation).toList "operation" =
      some (quotation :: (content operation ++ quotation :: ['\x7d'])) := by
  have hfield : appendString "operation" = needle "operation" := by decide
  rw [operationBody_toList, hfield, afterField, skip_name]
  generalize quotation :: (content operation ++ quotation :: ['\x7d']) = value
  have hvalue : ':' ∉ ',' :: needle "operation" := by decide
  rcases afterFirst_needle mbean (',' :: (needle "operation" ++ ':' :: value)) with h | h
  · rw [h]
    exact afterFirst_singleton hvalue value
  · rw [h, afterFirst_cons_of_not_isPrefixOf (by rfl), afterFirst_cons_of_not_isPrefixOf (by rfl),
      afterFirst_append_self (needle_ne_nil _), bind_some, afterColon]

theorem jsonField_eq {raw field value : String} {rest : List Char}
    (h : afterField raw.toList field = some (quotation :: (content value ++ quotation :: rest))) :
    jsonField raw field = String.ofList (value.toList.flatMap heard) := by
  have hquote : afterFirst [quotation] (quotation :: (content value ++ quotation :: rest)) =
      some (content value ++ quotation :: rest) :=
    afterFirst_append_self (cons_ne_nil _ _) _
  rw [jsonField, h, bind_some, hquote]
  dsimp only
  rw [readString_content]

theorem jsonField_name :
    jsonField (operationBody mbean operation) "name" = String.ofList (mbean.toList.flatMap heard) :=
  jsonField_eq (afterField_name mbean operation)

theorem ofList_heard_eq_iff (s : String) : String.ofList (s.toList.flatMap heard) = s ↔ ∀ c ∈ s.toList, Literal c := by
  have hlist : String.ofList (s.toList.flatMap heard) = s ↔ s.toList.flatMap heard = s.toList := by
    rw [← String.toList_inj, String.toList_ofList]
  rw [hlist, flatMap_eq_self_iff heard_ne_nil]
  simp [heard_eq_iff]

end

/-- The names of an attribute read reach the agent as they are; those of an operation only if
they have no character that the JSON encoder writes as a letter or as a code. -/
theorem arguments_reach_agent (mbean attr operation : String) :
    (∃ q, query malformed (parseTarget (attributePath mbean attr)).2 = some q ∧
      q["name"]? = some mbean ∧ q["attribute"]? = some attr) ∧
    (jsonField (operationBody mbean operation) "name" = mbean ↔ ∀ c ∈ mbean.toList, Literal c) ∧
    (jsonField (operationBody mbean operation) "operation" = operation ↔ ∀ c ∈ operation.toList, Literal c) := by
  refine ⟨⟨_, query_attributePath mbean attr, ?_, ?_⟩, ?_, ?_⟩
  · rw [getElem?_insert_eq, if_neg (by decide), getElem?_insert_eq, if_pos rfl]
  · rw [getElem?_insert_eq, if_pos rfl]
  · rw [jsonField_name]
    exact ofList_heard_eq_iff mbean
  · rw [jsonField_eq (afterField_operation mbean operation)]
    exact ofList_heard_eq_iff operation

/-- The agent reads the code of an angle bracket as five letters. -/
theorem operation_argument_mangled :
    ¬ ∀ mbean operation : String, jsonField (operationBody mbean operation) "name" = mbean ∧
      jsonField (operationBody mbean operation) "operation" = operation := by
  intro h
  have hname := (h "app:type=Cache,name=<default>" "clear").1
  rw [jsonField_name] at hname
  exact absurd hname (by decide)

end Spectra.Jvm
