import Wbr1310.Lib.Text
import Wbr1310.Lib.Twins

/-!
# The request in the database

`parse_node` and `parse_child` of `hnap.c` put the texts of a request into the database, under paths
made of the names of the elements. A counter that begins where an element has the name of the next
one, and goes on to the last sibling, numbers the elements of an array. Paths are taken to fit in
their buffers.
-/

namespace Wbr1310.Hnap

open Lib Text Twins List Option

/-- A name as the parser accepts it: it has neither a slash nor a number sign. -/
structure Name where
  text : Text
  noSlash : '/' ∉ text
  noHash : '#' ∉ text
  deriving DecidableEq

/-- A node of the tree that `ixmlParseBuffer` makes. White space before a tag and comments give no
node. -/
inductive Node where
  | element (name : Name) (children : List Node)
  | data (cdata : Bool) (value : Text)

namespace Node

def nodeName : Node → Text
  | element name _ => name.text
  | data false _ => "#text".toList
  | data true _ => "#cdata-section".toList

def nodeValue : Node → Option Text
  | element _ _ => none
  | data _ value => some value

/-- The nodes from `firstChild` on. -/
def children : Node → List Node
  | element _ children => children
  | data _ _ => []

def getParameterNodehead : Node → Option Node
  | element name children =>
    if name.text = "soap:Body".toList then children.head?
    else match children with
      | [] => none
      | child :: _ => getParameterNodehead child
  | data _ _ => none

end Node

def names (l : List Node) : List Text := l.map Node.nodeName

/-- The counter of `parse_child` after a node that has the given nodes behind it. -/
def nextIndex (index : ℕ) (node : Node) (rest : List Node) : ℕ :=
  if index ≠ 0 ∨ rest.head?.map Node.nodeName = some node.nodeName then index + 1 else index

def label (name : Text) (index : ℕ) : Text :=
  if index ≠ 0 then name ++ ':' :: decimal index else name

mutual

/-- What the call of `parse_child` for the children of a node stores. -/
def Node.parseChildren (rgdbNode : Text) : Node → List (Text × Text)
  | .element _ children => parseChild rgdbNode 0 children
  | .data _ _ => []

/-- `parse_child`, with the counter: the paths and the values that are stored. -/
def parseChild (rgdbNodebase : Text) (index : ℕ) : List Node → List (Text × Text)
  | [] => []
  | node :: rest =>
    let index := nextIndex index node rest
    (node.nodeValue.map fun value => (rgdbNodebase, value)).toList ++
      node.parseChildren (rgdbNodebase ++ '/' :: label node.nodeName index) ++
      parseChild rgdbNodebase index rest

end

/-- The siblings with the last parts of the paths that `parse_child` gives them. -/
def labelled (index : ℕ) : List Node → List (Text × Node)
  | [] => []
  | node :: rest =>
    let index := nextIndex index node rest
    (label node.nodeName index, node) :: labelled index rest

def rgdbNodeBase : Text := "/runtime/hnap/".toList

/-- The nodes of the request that `parse_node` hands over. -/
def parameters (document : Option Node) : List Node :=
  ((document.bind Node.getParameterNodehead).map Node.children).getD []

/-- The lists of nodes at any depth. -/
inductive Below (top : List Node) : List Node → Prop where
  | top : Below top top
  | child {l children : List Node} {name : Name} (below : Below top l)
      (mem : .element name children ∈ l) : Below top children

variable {children : List Node} {name : Name} {place : List Text}

theorem Below.of_child {l l' : List Node} (h : Below children l')
    (mem : .element name children ∈ l) : Below l l' := by
  induction h with
  | top => exact .child .top mem
  | child _ mem' ih => exact .child ih mem'

theorem Below.cases_top {l l' : List Node} (h : Below l l') :
    l' = l ∨ ∃ name children, .element name children ∈ l ∧ Below children l' := by
  induction h with
  | top => exact .inl rfl
  | @child _ children name _ mem ih =>
    obtain rfl | ⟨name', children', mem', hbelow⟩ := ih
    · exact .inr ⟨name, children, mem, .top⟩
    · exact .inr ⟨name', children', mem', .child hbelow mem⟩

def OrdinalLabels (l : List Node) : Prop :=
  ∀ q name children, l[q]? = some (.element name children) → 1 < (names l).count name.text →
    (labelled 0 l)[q]? =
      some (name.text ++ ':' :: decimal (((names l).take (q + 1)).count name.text),
        .element name children)

/-- No text of the request is stored where another one is, and the elements that occur several times
are numbered. -/
def StoredApart (actionName : Text) (document : Option Node) : Prop :=
  ((parseChild (rgdbNodeBase ++ actionName) 0 (parameters document)).map Prod.fst).Nodup ∧
    ∀ l, Below (parameters document) l → OrdinalLabels l

/-- A text stands below siblings at a place, where an element is called by its name, or, from the
first one on that has the name of the next one, by its name and number. -/
inductive TextAt : List Node → List Text → Prop where
  | here {l : List Node} {cdata : Bool} {value : Text} (mem : .data cdata value ∈ l) : TextAt l []
  | child {l children : List Node} {q : ℕ} {name : Name} {place : List Text}
      (found : l[q]? = some (.element name children)) (below : TextAt children place) :
      TextAt l (label name.text (numberOf (names l) q) :: place)

def OneText (l : List Node) : Prop :=
  l.Pairwise fun s t => ¬ (s.nodeValue.isSome ∧ t.nodeValue.isSome)

/-- Elements whose names look like another one's with its number have their texts elsewhere. -/
def NamesApart (l : List Node) : Prop :=
  ∀ q r name name' children children', q < r → l[q]? = some (.element name children) →
    l[r]? = some (.element name' children') →
    label name.text (numberOf (names l) q) = label name'.text (numberOf (names l) r) →
      ¬ ∃ place, TextAt children place ∧ TextAt children' place

/-- Siblings with one text at most, and with different names, apart from one array. -/
structure Plain (l : List Node) : Prop where
  oneText : OneText l
  oneRun : OneRun (names l)
  apart : NamesApart l

theorem siblings_induction {motive : List Node → Prop}
    (h : ∀ l, (∀ name children, .element name children ∈ l → motive children) → motive l)
    (l : List Node) : motive l := by
  induction hn : sizeOf l using Nat.strong_induction_on generalizing l with
  | _ n ih =>
    refine h l fun name children hmem => ih (sizeOf children) ?_ children rfl
    have hlt := sizeOf_lt_of_mem hmem
    rw [Node.element.sizeOf_spec] at hlt
    omega

def storedFor (rgdbNodebase : Text) (entry : Text × Node) : List (Text × Text) :=
  (entry.2.nodeValue.map fun value => (rgdbNodebase, value)).toList ++
    entry.2.parseChildren (rgdbNodebase ++ '/' :: entry.1)

theorem parseChild_eq (rgdbNodebase : Text) (index : ℕ) (l : List Node) :
    parseChild rgdbNodebase index l = (labelled index l).flatMap (storedFor rgdbNodebase) := by
  induction l generalizing index with
  | nil => rfl
  | cons node rest ih =>
    rw [parseChild, labelled, flatMap_cons, ← ih]
    rfl

theorem labelled_counting {index : ℕ} (h : index ≠ 0) (l : List Node) (q : ℕ) :
    (labelled index l)[q]? =
      l[q]?.map fun node => (label node.nodeName (index + q + 1), node) := by
  induction l generalizing index q with
  | nil => rfl
  | cons node rest ih =>
    have hnext : nextIndex index node rest = index + 1 := if_pos (.inl h)
    rw [labelled, hnext]
    cases q with
    | zero => rfl
    | succ q =>
      have hsum : index + 1 + q + 1 = index + (q + 1) + 1 := by omega
      rw [getElem?_cons_succ, getElem?_cons_succ,
        ih (show index + 1 ≠ 0 from Nat.succ_ne_zero _), hsum]

variable (base : Text) (l : List Node) (part : Text)

theorem labelled_getElem? (q : ℕ) :
    (labelled 0 l)[q]? =
      l[q]?.map fun node => (label node.nodeName (numberOf (names l) q), node) := by
  induction l generalizing q with
  | nil => rfl
  | cons node rest ih =>
    by_cases hsame : rest.head?.map Node.nodeName = some node.nodeName
    · obtain ⟨next, rest, rfl⟩ : ∃ next rest', rest = next :: rest' := by
        cases rest with
        | nil => cases hsame
        | cons next rest' => exact ⟨next, rest', rfl⟩
      have hname : node.nodeName = next.nodeName := (some.inj hsame).symm
      have hnumber (k : ℕ) : numberOf (names (node :: next :: rest)) k = k + 1 := by
        simp [numberOf, names, firstTwin, hname]
      have hnext : nextIndex 0 node (next :: rest) = 1 := if_pos (.inr hsame)
      rw [labelled, hnext]
      simp only [hnumber]
      cases q with
      | zero => rfl
      | succ q =>
        rw [getElem?_cons_succ, getElem?_cons_succ, labelled_counting Nat.one_ne_zero]
        simp only [Nat.add_comm 1 q]
    · have hnext : nextIndex 0 node rest = 0 := if_neg (by simp [hsame])
      have hnumber : ∀ k, numberOf (names (node :: rest)) (k + 1) = numberOf (names rest) k ∧
          numberOf (names (node :: rest)) 0 = 0 := by
        intro k
        cases rest with
        | nil => exact ⟨rfl, rfl⟩
        | cons next rest =>
          have hne : node.nodeName ≠ next.nodeName := fun he => hsame (congrArg some he.symm)
          simp only [numberOf, names, map_cons, firstTwin, if_neg hne]
          cases firstTwin (next.nodeName :: rest.map Node.nodeName) with
          | none => exact ⟨rfl, rfl⟩
          | some p => exact ⟨by simp, by simp⟩
      rw [labelled, hnext]
      cases q with
      | zero => simp [(hnumber 0).2]
      | succ q =>
        rw [getElem?_cons_succ, getElem?_cons_succ, ih]
        simp only [(hnumber q).1]

theorem noSlash_label (name : Name) (index : ℕ) : '/' ∉ label name.text index := by
  rw [label]
  split
  · have hdigits : '/' ∉ decimal index := fun h => absurd (isDigit_of_mem_decimal h) (by decide)
    simp [name.noSlash, hdigits]
  · exact name.noSlash

def pathEnd (place : List Text) : Text := place.flatMap ('/' :: ·)

theorem pathEnd_cons (place : List Text) :
    pathEnd (part :: place) = '/' :: (part ++ pathEnd place) := rfl

theorem append_pathEnd_inj {s t : Text} {place' : List Text} (hs : '/' ∉ s) (ht : '/' ∉ t)
    (h : s ++ pathEnd place = t ++ pathEnd place') : s = t ∧ pathEnd place = pathEnd place' := by
  have hcut {u : Text} (hu : '/' ∉ u) (place : List Text) :
      (u ++ pathEnd place).takeWhile (· ≠ '/') = u := by
    have hall : ∀ c ∈ u, decide (c ≠ '/') = true := fun c hc =>
      decide_eq_true fun he => hu (he ▸ hc)
    rw [takeWhile_append_of_pos hall]
    cases place with
    | nil => simp [pathEnd]
    | cons part place => simp [pathEnd_cons]
  have hst : s = t := by rw [← hcut hs place, h, hcut ht]
  subst hst
  exact ⟨rfl, append_cancel_left h⟩

theorem TextAt.noSlash {l : List Node} (h : TextAt l place) :
    ∀ part ∈ place, '/' ∉ part := by
  induction h with
  | here _ => simp
  | child _ _ ih => exact forall_mem_cons.mpr ⟨noSlash_label _ _, ih⟩

theorem pathEnd_inj {place' : List Text} (h : ∀ part ∈ place, '/' ∉ part)
    (h' : ∀ part ∈ place', '/' ∉ part) (heq : pathEnd place = pathEnd place') :
    place = place' := by
  induction place generalizing place' with
  | nil =>
    cases place' with
    | nil => rfl
    | cons part place' => cases heq
  | cons part place ih =>
    cases place' with
    | nil => cases heq
    | cons part' place' =>
      rw [forall_mem_cons] at h h'
      rw [pathEnd_cons, pathEnd_cons] at heq
      obtain ⟨rfl, hrest⟩ := append_pathEnd_inj h.1 h'.1 (cons.inj heq).2
      rw [ih h.2 h'.2 hrest]

theorem mem_labelled {l : List Node} {entry : Text × Node} (h : entry ∈ labelled 0 l) :
    ∃ q, l[q]? = some entry.2 ∧ entry.1 = label entry.2.nodeName (numberOf (names l) q) := by
  obtain ⟨q, hq⟩ := mem_iff_getElem?.mp h
  rw [labelled_getElem?] at hq
  obtain ⟨node, hnode, rfl⟩ := map_eq_some_iff.mp hq
  exact ⟨q, hnode, rfl⟩

def pathsFor (base : Text) (entry : Text × Node) : List Text := (storedFor base entry).map Prod.fst

theorem pathsFor_data (cdata : Bool) (value : Text) :
    pathsFor base (part, .data cdata value) = [base] := rfl

theorem pathsFor_element (name : Name) (children : List Node) :
    pathsFor base (part, .element name children) =
      (parseChild (base ++ '/' :: part) 0 children).map Prod.fst := rfl

theorem paths_eq :
    (parseChild base 0 l).map Prod.fst = (labelled 0 l).flatMap (pathsFor base) := by
  rw [parseChild_eq, map_flatMap]
  rfl

theorem mem_paths_iff : ∀ base path,
    path ∈ (parseChild base 0 l).map Prod.fst ↔
      ∃ place, TextAt l place ∧ path = base ++ pathEnd place := by
  induction l using siblings_induction with
  | h l ih =>
    intro base path
    rw [paths_eq, mem_flatMap]
    constructor
    · rintro ⟨⟨part, node⟩, hentry, hpath⟩
      obtain ⟨q, hq, hpart⟩ := mem_labelled hentry
      cases node with
      | data cdata value =>
        rw [pathsFor_data, mem_singleton] at hpath
        exact ⟨[], .here (mem_of_getElem? hq), by rw [hpath, pathEnd, flatMap_nil,
          append_nil]⟩
      | element name children =>
        rw [pathsFor_element] at hpath
        obtain ⟨place, hplace, rfl⟩ := (ih name children (mem_of_getElem? hq) _ _).mp hpath
        obtain rfl : part = label name.text (numberOf (names l) q) := hpart
        exact ⟨_ :: place, .child hq hplace, by simp [pathEnd_cons]⟩
    · rintro ⟨place, hplace, rfl⟩
      cases hplace with
      | @here _ cdata value hmem =>
        obtain ⟨q, hq⟩ := mem_iff_getElem?.mp hmem
        refine ⟨(label (Node.nodeName (.data cdata value)) (numberOf (names l) q),
          .data cdata value), mem_iff_getElem?.mpr ⟨q, ?_⟩, ?_⟩
        · rw [labelled_getElem?, hq]
          rfl
        · simp [pathsFor_data, pathEnd]
      | @child _ children q name place hq hbelow =>
        refine ⟨(label name.text (numberOf (names l) q), .element name children),
          mem_iff_getElem?.mpr ⟨q, ?_⟩, ?_⟩
        · rw [labelled_getElem?, hq]
          rfl
        · rw [pathsFor_element, ih name children (mem_of_getElem? hq)]
          exact ⟨place, hbelow, by simp [pathEnd_cons]⟩

/-- The paths below different elements meet where they have the same label and a text at the same
place. -/
theorem disjoint_elements_iff {base : Text} {name' : Name} {children' : List Node} {k k' : ℕ} :
    List.Disjoint (pathsFor base (label name.text k, .element name children))
        (pathsFor base (label name'.text k', .element name' children')) ↔
      (label name.text k = label name'.text k' →
        ¬ ∃ place, TextAt children place ∧ TextAt children' place) := by
  rw [pathsFor_element, pathsFor_element]
  constructor
  · rintro h heq ⟨place, hplace, hplace'⟩
    refine h ((mem_paths_iff _ _ _).mpr ⟨place, hplace, rfl⟩) ((mem_paths_iff _ _ _).mpr ?_)
    exact ⟨place, hplace', by rw [heq]⟩
  · intro h path hpath hpath'
    obtain ⟨place, hplace, rfl⟩ := (mem_paths_iff _ _ _).mp hpath
    obtain ⟨place', hplace', heq⟩ := (mem_paths_iff _ _ _).mp hpath'
    rw [append_assoc, append_assoc] at heq
    have hends : label name.text k ++ pathEnd place = label name'.text k' ++ pathEnd place' :=
      (cons.inj (append_cancel_left heq)).2
    obtain ⟨hlabel, hrest⟩ := append_pathEnd_inj (noSlash_label _ _) (noSlash_label _ _) hends
    obtain rfl := pathEnd_inj hplace.noSlash hplace'.noSlash hrest
    exact h hlabel ⟨place, hplace, hplace'⟩

theorem base_not_mem_pathsFor {base part : Text} :
    base ∉ pathsFor base (part, .element name children) := by
  rw [pathsFor_element, mem_paths_iff]
  rintro ⟨place, -, heq⟩
  have hlen := congrArg length heq
  simp only [length_append, length_cons] at hlen
  omega

theorem pairwise_iff_getElem? {α : Type*} {R : α → α → Prop} {l : List α} :
    l.Pairwise R ↔
      ∀ (q r : ℕ) (s t : α), q < r → l[q]? = some s → l[r]? = some t → R s t := by
  rw [pairwise_iff_getElem]
  constructor
  · intro h q r s t hqr hs ht
    obtain ⟨hq, rfl⟩ := List.getElem?_eq_some_iff.mp hs
    obtain ⟨hr, rfl⟩ := List.getElem?_eq_some_iff.mp ht
    exact h q r hq hr hqr
  · intro h q r hq hr hqr
    exact h q r _ _ hqr (getElem?_eq_getElem hq) (getElem?_eq_getElem hr)

theorem pairwise_disjoint_iff :
    (labelled 0 l).Pairwise (Function.onFun List.Disjoint (pathsFor base)) ↔
      OneText l ∧ NamesApart l := by
  rw [OneText, pairwise_iff_getElem?, pairwise_iff_getElem?]
  simp only [labelled_getElem?, map_eq_some_iff, Function.onFun]
  constructor
  · intro h
    constructor
    · rintro q r s t hqr hs ht ⟨hsome, hsome'⟩
      cases s with
      | element name children => cases hsome
      | data cdata value =>
        cases t with
        | element name children => cases hsome'
        | data cdata' value' =>
          have hdisjoint := h q r _ _ hqr ⟨_, hs, rfl⟩ ⟨_, ht, rfl⟩
          exact hdisjoint (mem_singleton.mpr rfl) (mem_singleton.mpr rfl)
    · intro q r name name' children children' hqr hs ht
      exact disjoint_elements_iff.mp (h q r _ _ hqr ⟨_, hs, rfl⟩ ⟨_, ht, rfl⟩)
  · rintro ⟨hone, hapart⟩ q r _ _ hqr ⟨s, hs, rfl⟩ ⟨t, ht, rfl⟩
    cases s with
    | element name children =>
      cases t with
      | element name' children' =>
        exact disjoint_elements_iff.mpr (hapart q r _ _ _ _ hqr hs ht)
      | data cdata value =>
        rw [pathsFor_data, disjoint_singleton]
        exact base_not_mem_pathsFor
    | data cdata value =>
      cases t with
      | element name children =>
        rw [pathsFor_data, singleton_disjoint]
        exact base_not_mem_pathsFor
      | data cdata' value' => exact absurd ⟨rfl, rfl⟩ (hone q r _ _ hqr hs ht)

theorem nodup_paths_iff : ∀ base,
    ((parseChild base 0 l).map Prod.fst).Nodup ↔
      ∀ l', Below l l' → OneText l' ∧ NamesApart l' := by
  induction l using siblings_induction with
  | h l ih =>
    intro base
    rw [paths_eq, nodup_flatMap, pairwise_disjoint_iff]
    constructor
    · rintro ⟨heach, hl⟩ l' hbelow
      obtain rfl | ⟨name, children, hmem, hbelow⟩ := hbelow.cases_top
      · exact hl
      · obtain ⟨q, hq⟩ := mem_iff_getElem?.mp hmem
        have hentry := heach (label name.text (numberOf (names l) q), .element name children)
          (mem_iff_getElem?.mpr ⟨q, by rw [labelled_getElem?, hq]; rfl⟩)
        rw [pathsFor_element, ih name children hmem] at hentry
        exact hentry l' hbelow
    · intro h
      refine ⟨?_, h l .top⟩
      rintro ⟨part, node⟩ hentry
      obtain ⟨q, hq, -⟩ := mem_labelled hentry
      cases node with
      | data cdata value => exact nodup_singleton _
      | element name children =>
        have hmem := mem_of_getElem? hq
        rw [pathsFor_element, ih name children hmem]
        exact fun l' hbelow => h l' (hbelow.of_child hmem)

theorem isSome_nodeValue_of_hash {node : Node} (h : '#' ∈ node.nodeName) :
    node.nodeValue.isSome = true := by
  cases node with
  | element name children => exact absurd h name.noHash
  | data cdata value => rfl

theorem hash_mem_nodeName_data (cdata : Bool) (value : Text) :
    '#' ∈ (Node.data cdata value).nodeName := by
  cases cdata <;> exact mem_cons_self

theorem OneText.count_le {l : List Node} (h : OneText l) {name : Text} (hname : '#' ∈ name) :
    (names l).count name ≤ 1 := by
  induction l with
  | nil => exact Nat.zero_le _
  | cons node rest ih =>
    obtain ⟨hnode, hrest⟩ := pairwise_cons.mp h
    have hle := ih hrest
    rw [names, map_cons, count_cons]
    split
    · next heq =>
      have hsame : node.nodeName = name := beq_iff_eq.mp heq
      have hvalue := isSome_nodeValue_of_hash (hsame ▸ hname)
      have hnone : name ∉ rest.map Node.nodeName := by
        intro hmem
        obtain ⟨other, hother, rfl⟩ := mem_map.mp hmem
        exact hnode other hother ⟨hvalue, isSome_nodeValue_of_hash hname⟩
      rw [count_eq_zero.mpr hnone]
    · exact hle

theorem label_eq_iff {name : Text} {k n : ℕ} (hn : n ≠ 0) :
    label name k = name ++ ':' :: decimal n ↔ k = n := by
  constructor
  · intro h
    rw [label] at h
    split at h
    · have hdigits : decimal k = decimal n := (cons.inj (append_cancel_left h)).2
      rw [← leadingDigits_decimal k, hdigits, leadingDigits_decimal]
    · have hlen := congrArg length h
      simp only [length_append, length_cons] at hlen
      omega
  · rintro rfl
    exact if_pos hn

theorem ordinalLabels_iff {l : List Node} (h : OneText l) :
    OrdinalLabels l ↔ OneRun (names l) := by
  rw [← ordinal_iff_oneRun]
  have hlabel {q : ℕ} {name : Name} {children : List Node}
      (hq : l[q]? = some (.element name children)) :
      (labelled 0 l)[q]? =
          some (name.text ++ ':' :: decimal (((names l).take (q + 1)).count name.text),
            .element name children) ↔
        numberOf (names l) q = ((names l).take (q + 1)).count name.text := by
    have hname : (names l)[q]? = some name.text := by
      rw [names, getElem?_map, hq]
      rfl
    rw [labelled_getElem?, hq, map_some, some_inj, Prod.mk.injEq, and_iff_left rfl]
    exact label_eq_iff (Nat.ne_of_gt (count_take_pos hname))
  constructor
  · intro hord q name hname hcount
    rw [names, getElem?_map, map_eq_some_iff] at hname
    obtain ⟨node, hq, rfl⟩ := hname
    cases node with
    | data cdata value =>
      have := h.count_le (hash_mem_nodeName_data cdata value)
      omega
    | element name children => exact (hlabel hq).mp (hord q name children hq hcount)
  · intro hord q name children hq hcount
    refine (hlabel hq).mpr (hord q name.text ?_ hcount)
    rw [names, getElem?_map, hq]
    rfl

/-- Nothing of a request is overwritten, and repeated elements are numbered, exactly if all lists of
siblings are plain. -/
theorem storedApart_iff (actionName : Text) (document : Option Node) :
    StoredApart actionName document ↔ ∀ l, Below (parameters document) l → Plain l := by
  rw [StoredApart, nodup_paths_iff]
  constructor
  · rintro ⟨hnodup, hord⟩ l hl
    obtain ⟨hone, hapart⟩ := hnodup l hl
    exact ⟨hone, (ordinalLabels_iff hone).mp (hord l hl), hapart⟩
  · intro h
    refine ⟨fun l hl => ⟨(h l hl).oneText, (h l hl).apart⟩, fun l hl => ?_⟩
    exact (ordinalLabels_iff (h l hl).oneText).mpr (h l hl).oneRun

def nameA : Name := ⟨['a'], by decide, by decide⟩
def nameB : Name := ⟨['b'], by decide, by decide⟩

def leafOf (name : Name) (value : Char) : Node := .element name [.data false [value]]

def requestOf (l : List Node) : Option Node :=
  some (.element ⟨"soap:Envelope".toList, by decide, by decide⟩
    [.element ⟨"soap:Body".toList, by decide, by decide⟩ [.element nameA l]])

/-- Of `a`, `b`, `a` the last one overwrites the first; of `a`, `a`, `b`, `b` the first `b` has the
number 3. -/
theorem not_storedApart :
    ¬ StoredApart ['a'] (requestOf [leafOf nameA '1', leafOf nameB '2', leafOf nameA '3']) ∧
      ¬ StoredApart ['a']
        (requestOf [leafOf nameA '1', leafOf nameA '2', leafOf nameB '3', leafOf nameB '4']) := by
  constructor
  · rintro ⟨hnodup, -⟩
    exact absurd hnodup (by decide +kernel)
  · rintro ⟨-, hordinal⟩
    have hthird := hordinal _ .top 2 nameB _ rfl (by decide +kernel)
    exact absurd (congrArg (Option.map Prod.fst) hthird) (by decide +kernel)

end Wbr1310.Hnap
