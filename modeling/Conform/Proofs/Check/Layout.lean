/-
Module: Conform.Proofs.Check.Layout
Purpose: How a report is laid out. What a visit leaves in a report is a block: the rules that the value
  breaks itself, the missing names, then for each member its block, for each element its block, and the
  duplicates. The order is that of the instance, so a report has one layout, and the key order of schemas
  makes no difference to it.
Main exports: Block, MemberBlocks, ElementBlocks, Block.unique, block_of_visit, check_layout
-/
import Conform.Proofs.Check.Congruence
import Conform.Proofs.Check.Relocation
import Conform.Proofs.Json.Duplicates

namespace Conform

open Json

/-! ### Blocks -/

/-- Places in the order of a report, each with the rule that is broken there. -/
abbrev Sites := List (Location × Rule)

/-- One site if something is the case, and none if not. -/
inductive SiteIf (broken : Prop) (site : Location × Rule) : Sites → Prop where
  | reported (holds : broken) : SiteIf broken site [site]
  | silent (fails : ¬ broken) : SiteIf broken site []

namespace Json

/-- The members of an object, in their order; other values have none. -/
def memberList (value : Json) : List (String × Json) := value.asObject?.getD []

/-- The elements of an array, in their order; other values have none. -/
def elementList (value : Json) : List Json := value.asArray?.getD []

/-- The required names that an object does not have, in the order of the schema. -/
def missingNames (schema value : Json) : List String :=
  (Node.requiredOf schema).filter fun name => value.isObject && (value.get? name).isNone

end Json

mutual

/-- The block of a stop. A value of the wrong type is all there is; else come `const`, `enum` and the
    shape of an object, the missing names, the members, the shape of an array, the elements and the
    duplicates. Where a value has to be an object and is none, nothing is said about arrays. -/
inductive Block (root : Json) : Stop → Sites → Prop where
  | mistyped {stop : Stop} {target : Json} (resolves : effectiveSchema root stop.schema = .ok target)
      (rejected : ¬ target.TypeAllows stop.value) : Block root stop [(stop.place, .typeMismatch)]
  | typed {stop : Stop} {target : Json} {const enum object members array elements : Sites}
      {duplicates : List Nat} (resolves : effectiveSchema root stop.schema = .ok target)
      (type : target.TypeAllows stop.value)
      (const_sites : SiteIf (¬ target.ConstAllows stop.value) (stop.place, .constMismatch) const)
      (enum_sites : SiteIf (¬ target.EnumAllows stop.value) (stop.place, .enumMismatch) enum)
      (object_sites : SiteIf (target.ObjectShaped ∧ stop.value.isObject = false)
        (stop.place, .notAnObject) object)
      (member_sites : MemberBlocks root stop target 0 stop.value.memberList members)
      (array_sites : SiteIf (target.ArrayShaped ∧ (∀ items, stop.value ≠ .array items) ∧
        (target.ObjectShaped → stop.value.isObject = true)) (stop.place, .notAnArray) array)
      (element_sites : ElementBlocks root stop target 0 stop.value.elementList elements)
      (ascending : duplicates.Pairwise (· < ·))
      (repeated : ∀ i, i ∈ duplicates ↔
        target.WantsDistinct ∧ ¬ target.ObjectShaped ∧ HasEarlierTwin stop.value.elementList i) :
      Block root stop (const ++ enum ++ object ++
        (target.missingNames stop.value).map (fun name => (stop.place.member name, .missingRequired)) ++
        members ++ array ++ elements ++
        duplicates.map fun i => (stop.place.element i, .duplicateItem))

/-- What stands in a report for the members of an object from one number on: the block of each member that
    has a schema, and a denied member itself. -/
inductive MemberBlocks (root : Json) : Stop → Json → Nat → List (String × Json) → Sites → Prop where
  | nil {stop : Stop} {target : Json} {i : Nat} : MemberBlocks root stop target i [] []
  | visited {stop : Stop} {target inner part : Json} {i : Nat} {key : String}
      {rest : List (String × Json)} {block sites : Sites} (applies : target.MemberSchema key inner)
      (visit : Block root (stop.member i key inner part) block)
      (others : MemberBlocks root stop target (i + 1) rest sites) :
      MemberBlocks root stop target i ((key, part) :: rest) (block ++ sites)
  | denied {stop : Stop} {target part : Json} {i : Nat} {key : String} {rest : List (String × Json)}
      {sites : Sites} (denies : target.Denies key)
      (others : MemberBlocks root stop target (i + 1) rest sites) :
      MemberBlocks root stop target i ((key, part) :: rest)
        ((stop.place.member key, .additionalProperty) :: sites)
  | allowed {stop : Stop} {target part : Json} {i : Nat} {key : String} {rest : List (String × Json)}
      {sites : Sites} (free : ∀ inner, ¬ target.MemberSchema key inner) (allows : ¬ target.Denies key)
      (others : MemberBlocks root stop target (i + 1) rest sites) :
      MemberBlocks root stop target i ((key, part) :: rest) sites

/-- What stands in a report for the elements of an array from one number on: the blocks of all elements if
    there is a schema for them, and no object has to be there. -/
inductive ElementBlocks (root : Json) : Stop → Json → Nat → List Json → Sites → Prop where
  | nil {stop : Stop} {target : Json} {i : Nat} : ElementBlocks root stop target i [] []
  | visited {stop : Stop} {target inner part : Json} {i : Nat} {rest : List Json} {block sites : Sites}
      (applies : target.ItemSchema inner) (unshaped : ¬ target.ObjectShaped)
      (visit : Block root (stop.element i inner part) block)
      (others : ElementBlocks root stop target (i + 1) rest sites) :
      ElementBlocks root stop target i (part :: rest) (block ++ sites)
  | unvisited {stop : Stop} {target part : Json} {i : Nat} {rest : List Json} {sites : Sites}
      (free : target.ObjectShaped ∨ ∀ inner, ¬ target.ItemSchema inner)
      (others : ElementBlocks root stop target (i + 1) rest sites) :
      ElementBlocks root stop target i (part :: rest) sites

end

/-! ### One layout -/

section Unique

variable {root target : Json} {stop : Stop}

theorem SiteIf.unique {broken : Prop} {site : Location × Rule} {a b : Sites} (ha : SiteIf broken site a)
    (hb : SiteIf broken site b) : a = b := by
  cases ha with
  | reported holds =>
    cases hb with
    | reported => rfl
    | silent fails => exact absurd holds fails
  | silent fails =>
    cases hb with
    | reported holds => exact absurd holds fails
    | silent => rfl

/-- Ascending lists of the same numbers are the same. -/
theorem eq_of_ascending {a b : List Nat} (ha : a.Pairwise (· < ·)) (hb : b.Pairwise (· < ·))
    (h : ∀ i, i ∈ a ↔ i ∈ b) : a = b := by
  have hperm : a.Perm b :=
    (List.perm_ext_iff_of_nodup (ha.imp Nat.ne_of_lt) (hb.imp Nat.ne_of_lt)).2 h
  exact hperm.eq_of_pairwise (fun i j _ _ hij hji => absurd hij (Nat.lt_asymm hji)) ha hb

/-- The blocks of members are laid out in one way if each of them is. -/
theorem MemberBlocks.unique {members : List (String × Json)}
    (hparts : ∀ key part, (key, part) ∈ members → ∀ inner : Stop, inner.value = part →
      ∀ a b, Block root inner a → Block root inner b → a = b) :
    ∀ {i a b}, MemberBlocks root stop target i members a → MemberBlocks root stop target i members b →
      a = b := by
  induction members with
  | nil =>
    intro i a b ha hb
    cases ha
    cases hb
    rfl
  | cons member rest ih =>
    intro i a b ha hb
    have hrest : ∀ {a b}, MemberBlocks root stop target (i + 1) rest a →
        MemberBlocks root stop target (i + 1) rest b → a = b :=
      ih fun key part hmem => hparts key part (List.mem_cons_of_mem _ hmem)
    cases ha with
    | visited applies visit others =>
      cases hb with
      | visited applies' visit' others' =>
        obtain rfl := applies.unique applies'
        rw [hparts _ _ List.mem_cons_self _ rfl _ _ visit visit', hrest others others']
      | denied denies' _ => exact absurd denies' applies.not_denies
      | allowed free' _ _ => exact absurd applies (free' _)
    | denied denies others =>
      cases hb with
      | visited applies' _ _ => exact absurd denies applies'.not_denies
      | denied _ others' => rw [hrest others others']
      | allowed _ allows' _ => exact absurd denies allows'
    | allowed free allows others =>
      cases hb with
      | visited applies' _ _ => exact absurd applies' (free _)
      | denied denies' _ => exact absurd denies' allows
      | allowed _ _ others' => exact hrest others others'

/-- The blocks of elements are laid out in one way if each of them is. -/
theorem ElementBlocks.unique {items : List Json}
    (hparts : ∀ part ∈ items, ∀ inner : Stop, inner.value = part →
      ∀ a b, Block root inner a → Block root inner b → a = b) :
    ∀ {i a b}, ElementBlocks root stop target i items a → ElementBlocks root stop target i items b →
      a = b := by
  induction items with
  | nil =>
    intro i a b ha hb
    cases ha
    cases hb
    rfl
  | cons part rest ih =>
    intro i a b ha hb
    have hrest : ∀ {a b}, ElementBlocks root stop target (i + 1) rest a →
        ElementBlocks root stop target (i + 1) rest b → a = b :=
      ih fun part hmem => hparts part (List.mem_cons_of_mem _ hmem)
    cases ha with
    | visited applies unshaped visit others =>
      cases hb with
      | visited applies' _ visit' others' =>
        obtain rfl := applies.unique applies'
        rw [hparts _ List.mem_cons_self _ rfl _ _ visit visit', hrest others others']
      | unvisited free' _ => exact (free'.elim unshaped fun hnone => hnone _ applies).elim
    | unvisited free others =>
      cases hb with
      | visited applies' unshaped' _ _ => exact (free.elim unshaped' fun hnone => hnone _ applies').elim
      | unvisited _ others' => exact hrest others others'

theorem part_of_mem_memberList {value part : Json} {key : String} (h : (key, part) ∈ value.memberList) :
    Part part value := by
  cases value with
  | object members => exact .member h
  | _ => exact absurd h List.not_mem_nil

theorem part_of_mem_elementList {value part : Json} (h : part ∈ value.elementList) : Part part value := by
  cases value with
  | array items => exact .element h
  | _ => exact absurd h List.not_mem_nil

/-- A stop has one block at most. -/
theorem Block.unique {a b : Sites} (ha : Block root stop a) (hb : Block root stop b) : a = b := by
  induction hvalue : stop.value using partInduction generalizing stop a b with
  | step value ih =>
    subst hvalue
    have hparts : ∀ part, Part part stop.value → ∀ inner : Stop, inner.value = part →
        ∀ a b, Block root inner a → Block root inner b → a = b :=
      fun part hpart inner hinner a b ha hb => ih part hpart ha hb hinner
    cases ha with
    | mistyped resolves rejected =>
      cases hb with
      | mistyped => rfl
      | typed resolves' type' =>
        obtain rfl := Except.ok.inj (resolves.symm.trans resolves')
        exact absurd type' rejected
    | typed resolves type const_sites enum_sites object_sites member_sites array_sites element_sites
        ascending repeated =>
      cases hb with
      | mistyped resolves' rejected' =>
        obtain rfl := Except.ok.inj (resolves.symm.trans resolves')
        exact absurd type rejected'
      | typed resolves' type' const_sites' enum_sites' object_sites' member_sites' array_sites'
          element_sites' ascending' repeated' =>
        obtain rfl := Except.ok.inj (resolves.symm.trans resolves')
        rw [const_sites.unique const_sites', enum_sites.unique enum_sites',
          object_sites.unique object_sites', array_sites.unique array_sites',
          MemberBlocks.unique (fun _ part hmem => hparts part (part_of_mem_memberList hmem))
            member_sites member_sites',
          ElementBlocks.unique (fun part hmem => hparts part (part_of_mem_elementList hmem))
            element_sites element_sites',
          eq_of_ascending ascending ascending' fun i => (repeated i).trans (repeated' i).symm]

end Unique

/-! ### Blocks of a visit -/

/-- The places and rules of what a walk found. -/
def Outcome.sites (o : Outcome) : Sites := o.findings.map Finding.site

/-- A walk that ends normally leaves its sites before those of the next one. -/
theorem Outcome.sites_andThen {a : Outcome} (h : a.failure = none) (b : Outcome) :
    (a.andThen b).sites = a.sites ++ b.sites := by
  rw [sites, findings_andThen h, List.map_append]
  rfl

section Visit

variable {root target : Json} {stop : Stop}

/-- What the visit of a stop leaves in a report is its block, if the visit comes to an end. -/
def Stop.LaidOut (root : Json) (stop : Stop) : Prop :=
  (visit root stop.schema stop.place stop.value).failure = none →
    Block root stop (visit root stop.schema stop.place stop.value).sites

/-- A site that depends on a test. -/
theorem siteIf_of_iff {b : Bool} {broken : Prop} (h : b = true ↔ broken) (site : Location × Rule) :
    SiteIf broken site (if b then [site] else []) := by
  cases b with
  | true => exact .reported (h.1 rfl)
  | false => exact .silent fun hbroken => Bool.false_ne_true (h.2 hbroken)

/-- The comparison with `const` leaves one site or none. -/
theorem siteIf_constViolations (place : Location) (value : Json) :
    SiteIf (¬ target.ConstAllows value) (place, .constMismatch)
      (((Node.ofJson target).constViolations value).map fun violation => (place, violation.rule)) := by
  by_cases hallows : target.ConstAllows value
  · rw [Node.constViolations_ofJson_eq_nil_iff.2 hallows]
    exact .silent (not_not_intro hallows)
  · obtain ⟨expected, -, -, hfound⟩ := Node.constViolations_ofJson_of_not_allows hallows
    rw [hfound]
    exact .reported hallows

/-- The comparison with `enum` leaves one site or none. -/
theorem siteIf_enumViolations (place : Location) (value : Json) :
    SiteIf (¬ target.EnumAllows value) (place, .enumMismatch)
      (((Node.ofJson target).enumViolations value).map fun violation => (place, violation.rule)) := by
  by_cases hallows : target.EnumAllows value
  · rw [Node.enumViolations_ofJson_eq_nil_iff.2 hallows]
    exact .silent (not_not_intro hallows)
  · obtain ⟨allowed, -, -, hfound⟩ := Node.enumViolations_ofJson_of_not_allows hallows
    rw [hfound]
    exact .reported hallows

/-- The visits of members one after the other leave their blocks. -/
theorem memberBlocks_of_sequence {members : List (String × Json)}
    (hparts : ∀ key part, (key, part) ∈ members → ∀ inner : Stop, inner.value = part →
      inner.LaidOut root) :
    ∀ {i},
      (Outcome.sequence (members.map (visitMember root (Node.ofJson target) stop.place))).failure = none →
      MemberBlocks root stop target i members
        (Outcome.sequence (members.map (visitMember root (Node.ofJson target) stop.place))).sites := by
  induction members with
  | nil => exact fun _ => .nil
  | cons member rest ih =>
    intro i hends
    rcases member with ⟨key, part⟩
    rw [List.map_cons, Outcome.sequence_cons] at hends ⊢
    obtain ⟨hmember, hrest⟩ := Outcome.failure_andThen_eq_none_iff.1 hends
    have hothers :=
      ih (fun key part hmem => hparts key part (List.mem_cons_of_mem _ hmem)) (i := i + 1) hrest
    rw [Outcome.sites_andThen hmember]
    rw [visitMember] at hmember ⊢
    cases hrule : (Node.ofJson target).memberRule key with
    | schema inner =>
      simp only [hrule] at hmember ⊢
      exact .visited (Node.memberRule_ofJson_eq_schema_iff.1 hrule)
        (hparts key part List.mem_cons_self (stop.member i key inner part) rfl hmember) hothers
    | deny => exact .denied (Node.memberRule_ofJson_eq_deny_iff.1 hrule) hothers
    | allow =>
      refine .allowed (fun inner happlies => ?_) (fun hdenies => ?_) hothers
      · rw [Node.memberRule_ofJson_eq_schema_iff.2 happlies] at hrule
        cases hrule
      · rw [Node.memberRule_ofJson_eq_deny_iff.2 hdenies] at hrule
        cases hrule

/-- A schema that is not about objects leaves nothing for members. -/
theorem memberBlocks_of_unshaped (hunshaped : ¬ target.ObjectShaped) :
    ∀ (i : Nat) (members : List (String × Json)), MemberBlocks root stop target i members []
  | _, [] => .nil
  | i, (_, _) :: rest => .allowed (fun _ happlies => hunshaped happlies.objectShaped)
      (fun hdenies => hunshaped hdenies.objectShaped) (memberBlocks_of_unshaped hunshaped (i + 1) rest)

/-- The visits of elements one after the other leave their blocks, if no object has to be there. -/
theorem elementBlocks_of_sequence {items : List Json} (hunshaped : ¬ target.ObjectShaped)
    (hparts : ∀ part ∈ items, ∀ inner : Stop, inner.value = part → inner.LaidOut root) :
    ∀ {i}, (Outcome.sequence
        ((items.zipIdx i).map (visitElement root (Node.ofJson target) stop.place))).failure = none →
      ElementBlocks root stop target i items (Outcome.sequence
        ((items.zipIdx i).map (visitElement root (Node.ofJson target) stop.place))).sites := by
  induction items with
  | nil => exact fun _ => .nil
  | cons part rest ih =>
    intro i hends
    rw [List.zipIdx_cons, List.map_cons, Outcome.sequence_cons] at hends ⊢
    obtain ⟨helement, hrest⟩ := Outcome.failure_andThen_eq_none_iff.1 hends
    have hothers := ih (fun part hmem => hparts part (List.mem_cons_of_mem _ hmem)) hrest
    rw [Outcome.sites_andThen helement]
    rw [visitElement] at helement ⊢
    cases hitems : (Node.ofJson target).items with
    | some inner =>
      simp only [hitems] at helement ⊢
      exact .visited (Node.items_ofJson_eq_some_iff.1 hitems) hunshaped
        (hparts part List.mem_cons_self (stop.element i inner part) rfl helement) hothers
    | none =>
      refine .unvisited (Or.inr fun inner happlies => ?_) hothers
      rw [Node.items_ofJson_eq_some_iff.2 happlies] at hitems
      cases hitems

/-- Where an object has to be there, or the schema is not about arrays, nothing is left for elements. -/
theorem elementBlocks_of_free (hfree : target.ObjectShaped ∨ ¬ target.ArrayShaped) :
    ∀ (i : Nat) (items : List Json), ElementBlocks root stop target i items []
  | _, [] => .nil
  | i, _ :: rest => .unvisited
      (hfree.imp_right fun hunshaped _ happlies => hunshaped happlies.arrayShaped)
      (elementBlocks_of_free hfree (i + 1) rest)

/-- What is found about a value itself leaves the site of `const` before that of `enum`. -/
theorem sites_valueFindings (node : Node) (place : Location) (value : Json) :
    (Outcome.found (node.valueFindings place value)).sites =
      (node.constViolations value).map (fun violation => (place, violation.rule)) ++
        (node.enumViolations value).map fun violation => (place, violation.rule) := by
  rw [Outcome.sites, Outcome.found, Node.valueFindings, List.map_map, List.map_append]
  rfl

/-- What is found about duplicates leaves a site for each of them. -/
theorem sites_duplicateFindings (node : Node) (place : Location) (items : List Json) :
    (Outcome.found (node.duplicateFindings place items)).sites =
      (if node.distinct then laterDuplicates items else []).map
        fun i => (place.element i, .duplicateItem) := by
  rw [Outcome.sites, Outcome.found, Node.duplicateFindings]
  cases node.distinct with
  | false => rfl
  | true =>
    rw [if_pos rfl, if_pos rfl, List.map_map]
    rfl

/-- What the visit of the parts of an object leaves: the missing names, the blocks of the members, and
    that it is no array. -/
theorem exists_memberBlocks {members : List (String × Json)}
    (hparts : ∀ key part, (key, part) ∈ members → ∀ inner : Stop, inner.value = part → inner.LaidOut root)
    (hends : (visitParts root (Node.ofJson target) stop.place (.object members)).failure = none) :
    ∃ sites, MemberBlocks root stop target 0 members sites ∧
      (visitParts root (Node.ofJson target) stop.place (.object members)).sites =
        (target.missingNames (.object members)).map
            (fun name => (stop.place.member name, .missingRequired)) ++
          sites ++ if (Node.ofJson target).wantsArray then [(stop.place, .notAnArray)] else [] := by
  have harray : (if (Node.ofJson target).wantsArray then .one stop.place (.notAnArray .object)
      else Outcome.found []).sites =
        if (Node.ofJson target).wantsArray then [(stop.place, .notAnArray)] else [] := by
    cases (Node.ofJson target).wantsArray <;> rfl
  rw [visitParts] at hends ⊢
  obtain ⟨hmembers, -⟩ := Outcome.failure_andThen_eq_none_iff.1 hends
  rw [Outcome.sites_andThen hmembers, harray]
  by_cases hobject : (Node.ofJson target).wantsObject = true
  · rw [if_pos hobject] at hmembers ⊢
    obtain ⟨-, hsequence⟩ := Outcome.failure_andThen_eq_none_iff.1 hmembers
    refine ⟨_, memberBlocks_of_sequence hparts hsequence, ?_⟩
    rw [Outcome.sites_andThen rfl, Outcome.sites, Outcome.found, Node.missingFindings, List.map_map]
    rfl
  · have hunshaped : ¬ target.ObjectShaped := mt Node.wantsObject_ofJson_iff.2 hobject
    have hnone : Node.requiredOf target = [] :=
      List.eq_nil_iff_forall_not_mem.2 fun _ hmem => hunshaped (objectShaped_of_mem_requiredOf hmem)
    refine ⟨[], memberBlocks_of_unshaped hunshaped 0 members, ?_⟩
    rw [if_neg hobject, missingNames, hnone]
    rfl

/-- What the visit of the parts of an array leaves: that it is no object, or the blocks of the elements
    and the duplicates. -/
theorem exists_elementBlocks {items : List Json}
    (hparts : ∀ part ∈ items, ∀ inner : Stop, inner.value = part → inner.LaidOut root)
    (hends : (visitParts root (Node.ofJson target) stop.place (.array items)).failure = none) :
    ∃ (sites : Sites) (duplicates : List Nat), ElementBlocks root stop target 0 items sites ∧
      duplicates.Pairwise (· < ·) ∧
      (∀ i, i ∈ duplicates ↔ target.WantsDistinct ∧ ¬ target.ObjectShaped ∧ HasEarlierTwin items i) ∧
      (visitParts root (Node.ofJson target) stop.place (.array items)).sites =
        (if (Node.ofJson target).wantsObject then [(stop.place, .notAnObject)] else []) ++ sites ++
          duplicates.map fun i => (stop.place.element i, .duplicateItem) := by
  rw [visitParts] at hends ⊢
  by_cases hobject : (Node.ofJson target).wantsObject = true
  · have hshaped := Node.wantsObject_ofJson_iff.1 hobject
    refine ⟨[], [], elementBlocks_of_free (Or.inl hshaped) 0 items, .nil, fun i => ?_, ?_⟩
    · exact ⟨fun h => absurd h List.not_mem_nil, fun h => absurd hshaped h.2.1⟩
    · rw [if_pos hobject, if_pos hobject]
      rfl
  · have hunshaped : ¬ target.ObjectShaped := mt Node.wantsObject_ofJson_iff.2 hobject
    rw [if_neg hobject] at hends ⊢
    by_cases harray : (Node.ofJson target).wantsArray = true
    · rw [if_pos harray] at hends ⊢
      obtain ⟨hsequence, -⟩ := Outcome.failure_andThen_eq_none_iff.1 hends
      refine ⟨_, if (Node.ofJson target).distinct then laterDuplicates items else [],
        elementBlocks_of_sequence hunshaped hparts hsequence, ?_, fun i => ?_, ?_⟩
      · split
        · exact pairwise_laterDuplicates items
        · exact .nil
      · rw [← Node.distinct_ofJson_iff, ← mem_laterDuplicates_iff]
        by_cases hdistinct : (Node.ofJson target).distinct = true <;> simp [hdistinct, hunshaped]
      · rw [Outcome.sites_andThen hsequence, sites_duplicateFindings, if_neg hobject, List.nil_append]
    · have hflat : ¬ target.ArrayShaped := mt Node.wantsArray_ofJson_iff.2 harray
      refine ⟨[], [], elementBlocks_of_free (Or.inr hflat) 0 items, .nil, fun i => ?_, ?_⟩
      · exact ⟨fun h => absurd h List.not_mem_nil, fun h => absurd h.1.arrayShaped hflat⟩
      · rw [if_neg harray, if_neg hobject]
        rfl

variable {trail : List Nat} {place : Location} {schema value : Json}

/-- The block of an object of an allowed type. -/
theorem block_of_object {members : List (String × Json)}
    (hresolves : effectiveSchema root schema = .ok target)
    (htype : target.TypeAllows (.object members))
    (hparts : ∀ key part, (key, part) ∈ members → ∀ inner : Stop, inner.value = part → inner.LaidOut root)
    (hends : (visitParts root (Node.ofJson target) place (.object members)).failure = none) :
    Block root ⟨trail, place, schema, .object members⟩
      ((Outcome.found ((Node.ofJson target).valueFindings place (.object members))).sites ++
        (visitParts root (Node.ofJson target) place (.object members)).sites) := by
  obtain ⟨sites, hmembers, hsites⟩ :=
    @exists_memberBlocks root target ⟨trail, place, schema, .object members⟩ members hparts hends
  have harray : (Node.ofJson target).wantsArray = true ↔ target.ArrayShaped ∧
      (∀ items, Json.object members ≠ .array items) ∧ (target.ObjectShaped → true = true) := by
    rw [Node.wantsArray_ofJson_iff]
    exact ⟨fun h => ⟨h, fun _ => Json.noConfusion, fun _ => rfl⟩, And.left⟩
  have hlayout : Block root ⟨trail, place, schema, .object members⟩ _ :=
    .typed hresolves htype (siteIf_constViolations place _) (siteIf_enumViolations place _)
      (.silent fun h => Bool.noConfusion h.2) hmembers (siteIf_of_iff harray _) .nil .nil
      fun i => ⟨fun h => absurd h List.not_mem_nil, fun h => absurd h.2.2 not_hasEarlierTwin_nil⟩
  rw [sites_valueFindings, hsites]
  simpa only [List.append_assoc, List.nil_append, List.append_nil, List.map_nil] using hlayout

/-- The block of an array of an allowed type. -/
theorem block_of_array {items : List Json} (hresolves : effectiveSchema root schema = .ok target)
    (htype : target.TypeAllows (.array items))
    (hparts : ∀ part ∈ items, ∀ inner : Stop, inner.value = part → inner.LaidOut root)
    (hends : (visitParts root (Node.ofJson target) place (.array items)).failure = none) :
    Block root ⟨trail, place, schema, .array items⟩
      ((Outcome.found ((Node.ofJson target).valueFindings place (.array items))).sites ++
        (visitParts root (Node.ofJson target) place (.array items)).sites) := by
  obtain ⟨sites, duplicates, helements, hascending, hrepeated, hsites⟩ :=
    @exists_elementBlocks root target ⟨trail, place, schema, .array items⟩ items hparts hends
  have hobject : (Node.ofJson target).wantsObject = true ↔ target.ObjectShaped ∧ false = false := by
    rw [Node.wantsObject_ofJson_iff, and_iff_left rfl]
  have hlayout : Block root ⟨trail, place, schema, .array items⟩ _ :=
    .typed hresolves htype (siteIf_constViolations place _) (siteIf_enumViolations place _)
      (siteIf_of_iff hobject _) .nil (.silent fun h => h.2.1 items rfl) helements hascending hrepeated
  have hmissing : target.missingNames (.array items) = [] := List.filter_false _
  rw [hmissing] at hlayout
  rw [sites_valueFindings, hsites]
  simpa only [List.append_assoc, List.nil_append, List.map_nil] using hlayout

/-- The shape of a value without parts leaves one site or none, and an object comes first. -/
theorem sites_shapeFindings (node : Node) (place : Location) (kind : Kind) :
    (Outcome.found (node.shapeFindings place kind)).sites =
      (if node.wantsObject then [(place, .notAnObject)] else []) ++
        if !node.wantsObject && node.wantsArray then [(place, .notAnArray)] else [] := by
  rw [Node.shapeFindings]
  cases node.wantsObject with
  | true => rfl
  | false => cases node.wantsArray <;> rfl

/-- The block of a value of an allowed type that is neither an object nor an array. -/
theorem block_of_scalar (hresolves : effectiveSchema root schema = .ok target)
    (htype : target.TypeAllows value) (hobject : value.isObject = false)
    (harray : ∀ items, value ≠ .array items) :
    Block root ⟨trail, place, schema, value⟩
      ((Outcome.found ((Node.ofJson target).valueFindings place value)).sites ++
        (Outcome.found ((Node.ofJson target).shapeFindings place value.kind)).sites) := by
  have hmembers : MemberBlocks root ⟨trail, place, schema, value⟩ target 0 value.memberList [] := by
    cases value with
    | object members => cases hobject
    | _ => exact .nil
  have helements : ElementBlocks root ⟨trail, place, schema, value⟩ target 0 value.elementList [] := by
    cases value with
    | array items => exact absurd rfl (harray items)
    | _ => exact .nil
  have hdistinct : ∀ i, ¬ HasEarlierTwin value.elementList i := by
    cases value with
    | array items => exact absurd rfl (harray items)
    | _ => exact fun i => not_hasEarlierTwin_nil
  have hmissing : target.missingNames value = [] := by
    simp [missingNames, hobject]
  have hnotObject : (Node.ofJson target).wantsObject = true ↔
      target.ObjectShaped ∧ value.isObject = false := by
    rw [Node.wantsObject_ofJson_iff, and_iff_left hobject]
  have hnotArray : (!(Node.ofJson target).wantsObject && (Node.ofJson target).wantsArray) = true ↔
      target.ArrayShaped ∧ (∀ items, value ≠ .array items) ∧
        (target.ObjectShaped → value.isObject = true) := by
    rw [Bool.and_eq_true, Bool.not_eq_true', ← Bool.not_eq_true, Node.wantsObject_ofJson_iff,
      Node.wantsArray_ofJson_iff, and_iff_right harray, hobject]
    exact and_comm.trans (and_congr_right fun _ => ⟨fun h hshaped => absurd hshaped h, fun h hshaped =>
      Bool.false_ne_true (h hshaped)⟩)
  have hlayout : Block root ⟨trail, place, schema, value⟩ _ :=
    .typed hresolves htype (siteIf_constViolations place value) (siteIf_enumViolations place value)
      (siteIf_of_iff hnotObject _) hmembers (siteIf_of_iff hnotArray _) helements .nil
      fun i => ⟨fun h => absurd h List.not_mem_nil, fun h => absurd h.2.2 (hdistinct i)⟩
  rw [hmissing] at hlayout
  rw [sites_valueFindings, sites_shapeFindings]
  simpa only [List.append_assoc, List.nil_append, List.append_nil, List.map_nil] using hlayout

/-- What a visit leaves in a report is a block, if the visit comes to an end. The induction is on the
    value: the blocks of members and elements are those of their own visits. -/
theorem block_of_visit (stop : Stop) : stop.LaidOut root := by
  induction hvalue : stop.value using partInduction generalizing stop with
  | step value ih =>
    intro hends
    subst hvalue
    rcases stop with ⟨trail, place, schema, value⟩
    have hparts : ∀ part, Part part value → ∀ inner : Stop, inner.value = part → inner.LaidOut root :=
      fun part hpart inner hinner => ih part hpart inner hinner
    cases hresolves : effectiveSchema root schema with
    | error e =>
      rw [visit_of_error hresolves] at hends
      cases hends
    | ok target =>
      by_cases hallows : target.TypeAllows value
      · have htype := Node.typeViolation?_ofJson_eq_none_iff.2 hallows
        rw [visit_of_typed hresolves htype] at hends ⊢
        obtain ⟨-, hends⟩ := Outcome.failure_andThen_eq_none_iff.1 hends
        rw [Outcome.sites_andThen rfl]
        cases value with
        | object members =>
          exact block_of_object hresolves hallows (fun key part hmem => hparts part (.member hmem)) hends
        | array items =>
          exact block_of_array hresolves hallows (fun part hmem => hparts part (.element hmem)) hends
        | _ => exact block_of_scalar hresolves hallows rfl fun _ => Json.noConfusion
      · obtain ⟨declared, -, -, -, htype⟩ := Node.typeViolation?_ofJson_of_not_allows hallows
        rw [visit_of_mistyped hresolves htype]
        exact .mistyped hresolves hallows

end Visit

/-! ### The layout of a report -/

/-- The sites of a visit are at its place or below. -/
theorem exists_under_of_mem_sites {root schema value : Json} {place : Location} {site : Location × Rule}
    (h : site ∈ (visit root schema place value).sites) : ∃ way : Location, site.1 = way.under place := by
  rw [visit_eq_under] at h
  obtain ⟨f, hf, rfl⟩ := List.mem_map.1 h
  obtain ⟨g, -, rfl⟩ := List.mem_map.1 hf
  exact ⟨g.location, rfl⟩

/-- Where a visit comes to an end, the visit of each stop that is reached leaves one piece of its sites,
    which is the block of the stop. -/
theorem exists_block_of_reached {root : Json} {start stop : Stop}
    (hends : (visit root start.schema start.place start.value).failure = none)
    (hreached : Reached root start stop) :
    ∃ before block after,
      (visit root start.schema start.place start.value).sites = before ++ block ++ after ∧
      block = (visit root stop.schema stop.place stop.value).sites ∧ Block root stop block ∧
      ∀ site ∈ block, ∃ way : Location, site.1 = way.under stop.place := by
  obtain ⟨hstop, earlier, later, -, hfindings⟩ := visit_of_reached hends hreached
  refine ⟨(reported earlier).map Finding.site, _, (reported later).map Finding.site, ?_, rfl,
    block_of_visit stop hstop, fun _ => exists_under_of_mem_sites⟩
  rw [Outcome.sites, hfindings, List.map_append, List.map_append]
  rfl

/-- A report has the layout that the instance fixes: its paths and rules are the block of the whole, which
    is one only. The visit of each stop that is reached has its block there as one piece, with places at
    the stop and below. Equivalent schemas, such as those with keys in another order, give the same
    layout. -/
theorem check_layout {root value : Json} {report : Report} (h : check root value = .ok report) :
    (∃ sites, Block root ⟨[], .whole, root, value⟩ sites ∧
      (∀ other, Block root ⟨[], .whole, root, value⟩ other → other = sites) ∧
      report.items.map Diagnostic.site = sites.map (fun site => (site.1.text, site.2)) ∧
      ∀ stop, Reached root ⟨[], .whole, root, value⟩ stop → ∃ before block after,
        sites = before ++ block ++ after ∧
        block = (visit root stop.schema stop.place stop.value).sites ∧ Block root stop block ∧
        ∀ site ∈ block, ∃ way : Location, site.1 = way.under stop.place) ∧
    ∀ root', root.equivalent root' = true → ∃ report', check root' value = .ok report' ∧
      report'.items.map Diagnostic.site = report.items.map Diagnostic.site := by
  obtain ⟨hends, -⟩ := check_eq_ok_iff.1 h
  have hblock : Block root ⟨[], .whole, root, value⟩ (visit root root .whole value).sites :=
    block_of_visit ⟨[], .whole, root, value⟩ hends
  refine ⟨⟨_, hblock, fun other hother => hother.unique hblock, map_site_of_check h,
    fun stop hreached => @exists_block_of_reached root ⟨[], .whole, root, value⟩ stop hends hreached⟩,
    fun root' hroot => ?_⟩
  have halike := visit_alike_of_equivalent hroot hroot .whole value
  have hcheck : check root' value = .ok (Report.empty.append (visit root' root' .whole value).findings) :=
    check_eq_ok_iff.2 ⟨halike.failure_eq_none_iff.1 hends, rfl⟩
  exact ⟨_, hcheck, by rw [map_site_of_check hcheck, map_site_of_check h, halike.findings]⟩

/-- Missing names in the order of the schema, then the members in that of the instance: one that is
    denied, and one with an element of the wrong type and a duplicate. With its keywords turned round, the
    schema gives the same. -/
theorem check_layout_reversed :
    let names : Json := .object [("type", .string "array"),
      ("items", .object [("type", .string "string")]), ("uniqueItems", .bool true)]
    let keywords : List (String × Json) := [("required", .array [.string "size", .string "owner"]),
      ("properties", .object [("names", names)]), ("additionalProperties", .bool false)]
    let value : Json := .object [("extra", .null), ("names", .array [.string "a", .null, .string "a"])]
    let sites : Sites := [(.member .whole "size", .missingRequired),
      (.member .whole "owner", .missingRequired), (.member .whole "extra", .additionalProperty),
      (.element (.member .whole "names") 1, .typeMismatch),
      (.element (.member .whole "names") 2, .duplicateItem)]
    Block (.object keywords) ⟨[], .whole, .object keywords, value⟩ sites ∧
      ∃ report, check (.object keywords.reverse) value = .ok report ∧
        report.items.map Diagnostic.site = sites.map fun site => (site.1.text, site.2) := by
  intro names keywords value sites
  have hends : (visit (.object keywords) (.object keywords) .whole value).failure = none := by
    decide +kernel
  have hsites : (visit (.object keywords) (.object keywords) .whole value).sites = sites := by
    decide +kernel
  have hreversed : (Json.object keywords).equivalent (.object keywords.reverse) = true := by
    refine equivalent_iff.2 (normalize_object_eq_of_perm (by decide) ?_)
    rw [normalizeMembers_eq_map, normalizeMembers_eq_map]
    exact (List.reverse_perm _).symm.map _
  have hcheck := check_eq_ok_iff.2 ⟨hends, rfl⟩
  obtain ⟨⟨laidOut, hblock, hunique, hreport, -⟩, hequivalent⟩ := check_layout hcheck
  obtain ⟨report', hcheck', hreport'⟩ := hequivalent _ hreversed
  have heq : laidOut = sites := by
    rw [← hsites]
    exact (hunique _ (block_of_visit ⟨[], .whole, .object keywords, value⟩ hends)).symm
  subst heq
  exact ⟨hblock, report', hcheck', hreport'.trans hreport⟩

end Conform
