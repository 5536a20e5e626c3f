/-
Module: Conform.Proofs.Json.Reading
Purpose: The indented text of a value is read back as the value. The text spells the tokens of a tree, the
  tokens are read as this tree, and the tree stands for the value if the keys of each object are distinct,
  its numbers read back and no more than 127 arrays and objects are nested.
Main exports: JsonSource.tokens, JsonSource.ofTokens?_tokens, Json.source, Json.ReadsBack,
  Json.collectMembers_of_nodup, Json.toJson?_source, Json.ofText?_pretty, Json.parse?_pretty
-/
import Conform.Json.Parser
import Conform.Proofs.Json.Tokens

namespace Conform

open Token

/-! ### Tokens of a tree -/

namespace JsonSource

mutual

/-- The tokens of a tree. -/
def tokens : JsonSource → List Token
  | .null => [.null]
  | .bool b => [.bool b]
  | .number n => [.number n]
  | .string units => [.string units]
  | .array [] => [.openArray, .closeArray]
  | .array (item :: rest) => .openArray :: (item.tokens ++ itemsTokens rest)
  | .object [] => [.openObject, .closeObject]
  | .object ((key, value) :: rest) =>
    .openObject :: .string key :: .colon :: (value.tokens ++ membersTokens rest)

/-- The tokens of the elements after the first one, each behind a comma, and the closing bracket. -/
def itemsTokens : List JsonSource → List Token
  | [] => [.closeArray]
  | item :: rest => .comma :: (item.tokens ++ itemsTokens rest)

/-- The tokens of the members after the first one, each behind a comma, and the closing brace. -/
def membersTokens : List (List TextUnit × JsonSource) → List Token
  | [] => [.closeObject]
  | (key, value) :: rest => .comma :: .string key :: .colon :: (value.tokens ++ membersTokens rest)

end

/-- An array with a first element is opened: no value begins with a closing bracket. -/
theorem read_openArray (first : JsonSource) (stack : List Frame) (rest : List Token) :
    read stack (.openArray :: (first.tokens ++ rest)) =
      read (.array [] :: stack) (first.tokens ++ rest) := by
  cases first with
  | array items => cases items <;> simp [tokens, read]
  | object members =>
    rcases members with _ | ⟨⟨key, value⟩, members⟩
    · simp [tokens, read]
    · simp [tokens, read]
  | _ => simp [tokens, read]

/-- The next element of an array is read: a string in it is no key, since no colon follows. -/
theorem resume_comma (next : JsonSource) (items : List JsonSource) (stack : List Frame)
    (done : List JsonSource)
    (value : JsonSource) (rest : List Token) :
    resume (.array done :: stack) value (.comma :: (next.tokens ++ (itemsTokens items ++ rest))) =
      read (.array (value :: done) :: stack) (next.tokens ++ (itemsTokens items ++ rest)) := by
  cases next with
  | string units => cases items <;> simp [tokens, itemsTokens, resume]
  | array nested => cases nested <;> simp [tokens, resume]
  | object members =>
    rcases members with _ | ⟨⟨key, inner⟩, members⟩
    · simp [tokens, resume]
    · simp [tokens, resume]
  | _ => simp [tokens, resume]

mutual

/-- The tokens of a tree are read as the tree, inside any open frames. -/
theorem read_tokens : ∀ (source : JsonSource) (stack : List Frame) (rest : List Token),
    read stack (source.tokens ++ rest) = resume stack source rest
  | .null, _, _ => by rw [tokens, List.singleton_append, read]
  | .bool _, _, _ => by rw [tokens, List.singleton_append, read]
  | .number _, _, _ => by rw [tokens, List.singleton_append, read]
  | .string _, _, _ => by rw [tokens, List.singleton_append, read]
  | .array [], _, _ => by simp only [tokens, List.cons_append, List.nil_append, read]
  | .array (item :: items), stack, rest => by
    rw [tokens, List.cons_append, List.append_assoc, read_openArray, read_tokens item,
      resume_itemsTokens items stack [] item rest]
    rfl
  | .object [], _, _ => by simp only [tokens, List.cons_append, List.nil_append, read]
  | .object ((key, value) :: members), stack, rest => by
    simp only [tokens, List.cons_append, List.append_assoc, read]
    rw [read_tokens value, resume_membersTokens members stack [] key value rest]
    rfl

/-- The tokens of the other elements complete an open array. -/
theorem resume_itemsTokens : ∀ (items : List JsonSource) (stack : List Frame) (done : List JsonSource)
    (value : JsonSource) (rest : List Token),
    resume (.array done :: stack) value (itemsTokens items ++ rest) =
      resume stack (.array (done.reverse ++ value :: items)) rest
  | [], _, _, _, _ => by simp only [itemsTokens, List.singleton_append, resume]
  | item :: items, stack, done, value, rest => by
    rw [itemsTokens, List.cons_append, List.append_assoc, resume_comma, read_tokens item,
      resume_itemsTokens items stack (value :: done) item rest, List.reverse_cons, List.append_assoc]
    rfl

/-- The tokens of the other members complete an open object. -/
theorem resume_membersTokens : ∀ (members : List (List TextUnit × JsonSource)) (stack : List Frame)
    (done : List (List TextUnit × JsonSource)) (key : List TextUnit) (value : JsonSource)
    (rest : List Token),
    resume (.object done key :: stack) value (membersTokens members ++ rest) =
      resume stack (.object (done.reverse ++ (key, value) :: members)) rest
  | [], _, _, _, _, _ => by simp only [membersTokens, List.singleton_append, resume]
  | (next, inner) :: members, stack, done, key, value, rest => by
    simp only [membersTokens, List.cons_append, List.append_assoc, resume]
    rw [read_tokens inner, resume_membersTokens members stack ((key, value) :: done) next inner rest,
      List.reverse_cons, List.append_assoc]
    rfl

end

/-- The tokens of a tree spell the tree. -/
theorem ofTokens?_tokens (source : JsonSource) : ofTokens? source.tokens = some source := by
  have hread := read_tokens source [] []
  rw [List.append_nil] at hread
  rw [ofTokens?, hread, resume]

end JsonSource

open JsonSource

/-! ### Trees of printed values -/

namespace Json

mutual

/-- The tree that a value is printed as. -/
def source : Json → JsonSource
  | .null => .null
  | .bool b => .bool b
  | .number n => .number n.numeral
  | .string s => .string (TextUnit.ofString s)
  | .array items => .array (sourceItems items)
  | .object members => .object (sourceMembers members)

def sourceItems : List Json → List JsonSource
  | [] => []
  | item :: rest => item.source :: sourceItems rest

def sourceMembers : List (String × Json) → List (List TextUnit × JsonSource)
  | [] => []
  | (key, value) :: rest => (TextUnit.ofString key, value.source) :: sourceMembers rest

end

/-- There is a tree for each element. -/
theorem length_sourceItems (items : List Json) : (sourceItems items).length = items.length := by
  induction items with
  | nil => rfl
  | cons item rest ih => rw [sourceItems, List.length_cons, ih, List.length_cons]

mutual

/-- All numbers in the value read back. -/
def ReadsBack : Json → Prop
  | .number n => n.ReadsBack
  | .array items => ReadsBackItems items
  | .object members => ReadsBackMembers members
  | _ => True

def ReadsBackItems : List Json → Prop
  | [] => True
  | item :: rest => item.ReadsBack ∧ ReadsBackItems rest

def ReadsBackMembers : List (String × Json) → Prop
  | [] => True
  | (_, value) :: rest => value.ReadsBack ∧ ReadsBackMembers rest

end

/-! ### Printed text -/

section Printed

variable {tokens : List Token} {text : List Char}

/-- A line break with its indentation stands between tokens. -/
theorem spells_lineBreak (level : Nat) (h : Spells tokens text) :
    Spells tokens (lineBreak level ++ text) := by
  apply Spells.blanks _ h
  intro c hc
  rcases List.mem_cons.1 hc with rfl | hspace
  · rfl
  · rw [List.eq_of_mem_replicate hspace]
    rfl

/-- No word goes on behind an element or a member. -/
theorem ends_indentedItems (level : Nat) (items : List Json) (text : List Char) :
    Ends (indentedItems level items ++ text) := by
  cases items with
  | nil => exact ends_cons (by decide)
  | cons item rest => exact ends_cons (by decide)

/-- No word goes on behind an element or a member. -/
theorem ends_indentedMembers (level : Nat) (members : List (String × Json)) (text : List Char) :
    Ends (indentedMembers level members ++ text) := by
  cases members with
  | nil => exact ends_cons (by decide)
  | cons member rest => exact ends_cons (by decide)

/-- A key with its colon and a blank. -/
theorem spells_key (key : String) (h : Spells tokens text) :
    Spells (.string (TextUnit.ofString key) :: .colon :: tokens) (quoted key ++ ':' :: ' ' :: text) :=
  .quoted key (.punctuation rfl (.blank rfl h))

mutual

/-- The indented text of a value spells its tokens, in front of a text where a word ends. -/
theorem spells_indented :
    ∀ (v : Json) (level : Nat) {tokens : List Token} {text : List Char}, v.ReadsBack →
    Ends text → Spells tokens text → Spells (v.source.tokens ++ tokens) (v.indented level ++ text)
  | .null, _, _, _, _, hends, h =>
    @Spells.word ['n', 'u', 'l', 'l'] _ _ _ (List.all_eq_true.1 (by decide)) rfl hends h
  | .bool true, _, _, _, _, hends, h =>
    @Spells.word ['t', 'r', 'u', 'e'] _ _ _ (List.all_eq_true.1 (by decide)) rfl hends h
  | .bool false, _, _, _, _, hends, h =>
    @Spells.word ['f', 'a', 'l', 's', 'e'] _ _ _ (List.all_eq_true.1 (by decide)) rfl hends h
  | .number n, _, _, _, hnumber, hends, h =>
    .word (fun c hc => isWordChar_of_isNumeric (n.isNumeric_of_mem_text c hc)) hnumber.ofWord?_text
      hends h
  | .string s, _, _, _, _, _, h => .quoted s h
  | .array [], _, _, _, _, _, h => .punctuation rfl (.punctuation rfl h)
  | .array (item :: items), level, _, text, hreads, _, h => by
    simp only [source, sourceItems, JsonSource.tokens, indented, List.cons_append, List.append_assoc]
    apply Spells.punctuation rfl
    apply spells_lineBreak
    apply spells_indented item _ hreads.1 (ends_indentedItems level items text)
    exact spells_indentedItems items level hreads.2 h
  | .object [], _, _, _, _, _, h => .punctuation rfl (.punctuation rfl h)
  | .object ((key, value) :: members), level, _, text, hreads, _, h => by
    simp only [source, sourceMembers, JsonSource.tokens, indented, List.cons_append, List.append_assoc]
    apply Spells.punctuation rfl
    apply spells_lineBreak
    apply spells_key
    apply spells_indented value _ hreads.1 (ends_indentedMembers level members text)
    exact spells_indentedMembers members level hreads.2 h

theorem spells_indentedItems :
    ∀ (items : List Json) (level : Nat) {tokens : List Token} {text : List Char},
    ReadsBackItems items → Spells tokens text →
    Spells (itemsTokens (sourceItems items) ++ tokens) (indentedItems level items ++ text)
  | [], level, _, _, _, h => by
    rw [indentedItems, List.append_assoc]
    exact spells_lineBreak level (.punctuation rfl h)
  | item :: items, level, _, text, hreads, h => by
    simp only [sourceItems, itemsTokens, indentedItems, List.cons_append, List.append_assoc]
    apply Spells.punctuation rfl
    apply spells_lineBreak
    apply spells_indented item _ hreads.1 (ends_indentedItems level items text)
    exact spells_indentedItems items level hreads.2 h

theorem spells_indentedMembers : ∀ (members : List (String × Json)) (level : Nat) {tokens : List Token}
    {text : List Char}, ReadsBackMembers members → Spells tokens text →
    Spells (membersTokens (sourceMembers members) ++ tokens) (indentedMembers level members ++ text)
  | [], level, _, _, _, h => by
    rw [indentedMembers, List.append_assoc]
    exact spells_lineBreak level (.punctuation rfl h)
  | (key, value) :: members, level, _, text, hreads, h => by
    simp only [sourceMembers, membersTokens, indentedMembers, List.cons_append, List.append_assoc]
    apply Spells.punctuation rfl
    apply spells_lineBreak
    apply spells_key
    apply spells_indented value _ hreads.1 (ends_indentedMembers level members text)
    exact spells_indentedMembers members level hreads.2 h

end

end Printed

/-! ### Values of trees -/

/-- A value under a new name goes to the end. -/
theorem set_of_not_mem {key : String} (value : Json) {members : List (String × Json)}
    (h : key ∉ members.map Prod.fst) : Entries.set key value members = members ++ [(key, value)] := by
  induction members with
  | nil => rfl
  | cons member rest ih =>
    obtain ⟨hne, hrest⟩ := not_or.1 (mt List.mem_cons.2 h)
    rw [Entries.set, if_neg fun heq => hne heq.symm, ih hrest, List.cons_append]

/-- Members with keys that are new are collected as they are, one after the other. -/
theorem foldl_set_of_nodup {members before : List (String × Json)}
    (h : ((before ++ members).map Prod.fst).Nodup) :
    members.foldl (fun collected member => Entries.set member.1 member.2 collected) before =
      before ++ members := by
  induction members generalizing before with
  | nil => rw [List.foldl_nil, List.append_nil]
  | cons member rest ih =>
    have hkey : member.1 ∉ before.map Prod.fst := by
      rw [List.map_append, List.map_cons] at h
      intro hmem
      exact (List.nodup_append.1 h).2.2 _ hmem _ List.mem_cons_self rfl
    rw [List.append_cons] at h ⊢
    rw [List.foldl_cons, set_of_not_mem _ hkey, ih h]

/-- Members with distinct keys are collected as they are. -/
theorem collectMembers_of_nodup {members : List (String × Json)} (h : (members.map Prod.fst).Nodup) :
    collectMembers members = members :=
  foldl_set_of_nodup h

mutual

/-- The tree of a printed value stands for the value. -/
theorem toJson?_source : ∀ (v : Json) {levels : Nat}, v.Proper → v.ReadsBack → v.depth ≤ levels →
    v.source.toJson? levels = some v
  | .null, _, _, _, _ => rfl
  | .bool _, _, _, _, _ => rfl
  | .number n, _, _, hreads, _ => by
    rw [source, toJson?, hreads.value?_numeral]
    rfl
  | .string s, _, _, _, _ => by
    rw [source, toJson?, TextUnit.string?_ofString]
    rfl
  | .array items, 0, _, _, hdepth => absurd hdepth (Nat.not_succ_le_zero _)
  | .array items, levels + 1, hproper, hreads, hdepth => by
    rw [source, toJson?, toItems?_sourceItems items hproper hreads (Nat.le_of_succ_le_succ hdepth)]
    rfl
  | .object members, 0, _, _, hdepth => absurd hdepth (Nat.not_succ_le_zero _)
  | .object members, levels + 1, hproper, hreads, hdepth => by
    rw [source, toJson?,
      toMembers?_sourceMembers members hproper.2 hreads (Nat.le_of_succ_le_succ hdepth),
      Option.map_some, collectMembers_of_nodup hproper.1]

theorem toItems?_sourceItems :
    ∀ (items : List Json) {levels : Nat}, ProperItems items → ReadsBackItems items →
    depthItems items ≤ levels → toItems? levels (sourceItems items) = some items
  | [], _, _, _, _ => rfl
  | item :: items, levels, hproper, hreads, hdepth => by
    have hmax : item.depth ≤ levels ∧ depthItems items ≤ levels := Nat.max_le.1 hdepth
    rw [sourceItems, toItems?, toJson?_source item hproper.1 hreads.1 hmax.1,
      toItems?_sourceItems items hproper.2 hreads.2 hmax.2]

theorem toMembers?_sourceMembers :
    ∀ (members : List (String × Json)) {levels : Nat}, ProperMembers members →
    ReadsBackMembers members → depthMembers members ≤ levels →
    toMembers? levels (sourceMembers members) = some members
  | [], _, _, _, _ => rfl
  | (key, value) :: members, levels, hproper, hreads, hdepth => by
    have hmax : value.depth ≤ levels ∧ depthMembers members ≤ levels := Nat.max_le.1 hdepth
    rw [sourceMembers, toMembers?, TextUnit.string?_ofString,
      toJson?_source value hproper.1 hreads.1 hmax.1,
      toMembers?_sourceMembers members hproper.2 hreads.2 hmax.2]

end

/-! ### Texts read back -/

/-- The indented text of a value, with blanks behind it, spells the tree of the value. -/
theorem ofText?_pretty {v : Json} (hreads : v.ReadsBack) {behind : String}
    (hblank : ∀ c ∈ behind.toList, isBlank c = true) : ofText? (v.pretty ++ behind) = some v.source := by
  have hends : Ends behind.toList := by
    intro c tail heq
    have hc : isBlank c = true := hblank c (heq ▸ List.mem_cons_self)
    rw [isWordChar, hc]
    rfl
  have hbehind : Spells [] behind.toList := by
    have hblanks := Spells.blanks hblank .done
    rwa [List.append_nil] at hblanks
  have hlex := lex_of_spells (spells_indented v 0 hreads hends hbehind)
  rw [List.append_nil] at hlex
  rw [ofText?, pretty, String.toList_append, String.toList_ofList, hlex, Option.bind_some,
    ofTokens?_tokens]

/-- A value is read back from its indented text. -/
theorem parse?_pretty {v : Json} (hproper : v.Proper) (hreads : v.ReadsBack) (hdepth : v.depth ≤ maxDepth)
    {behind : String} (hblank : ∀ c ∈ behind.toList, isBlank c = true) :
    Json.parse? (v.pretty ++ behind) = some v := by
  rw [parse?, ofText?_pretty hreads hblank, Option.bind_some]
  exact toJson?_source v hproper hreads hdepth

end Json

end Conform
