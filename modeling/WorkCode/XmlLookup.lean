import WorkCode.TextLines
import WorkCode.TreeDescent
import Mathlib.Data.Int.Notation

/-!
# The XML lookup

`get_xml_node` looks up a path of names below the root element of a document and prints
the text or an attribute of the node it finds there. A document is given by its nodes, as
libxml2 keeps them, and what the library returns for a node is a parameter; a text is the list
of its bytes, one character each.

A pointer into a child list is the rest of that list. What the C language leaves open (a
field of a `NULL` node, a buffer that is overrun, an end without `return`) is an outcome
of its own.
-/

namespace WorkCode.XmlLookup

open TextLines TreeDescent

abbrev Text := List Char

/-- The nodes of a document. The list of a node is what `xmlChildrenNode` and `next` lead through:
for an entity reference these are declarations, which have another parent as well, while
the children of an element are its own. -/
structure Document (ν : Type*) where
  root : Option ν
  name : ν → Option Text
  isElement : ν → Bool
  xmlChildrenNode : ν → List ν
  hasProp : ν → Text → Bool
  hasString : List ν → Bool
  isElement_of_root : ∀ cur, root = some cur → isElement cur = true
  nodup : ∀ cur, isElement cur = true → (xmlChildrenNode cur).Nodup
  parent_eq : ∀ parent other child, isElement parent = true → child ∈ xmlChildrenNode parent →
    child ∈ xmlChildrenNode other → other = parent
  hasString_nil : hasString [] = false

/-- What the library returns, `none` for `NULL`: the value of an attribute where the node has one,
and the string of a list of nodes where there is one, so never for the empty list. -/
structure Library {ν : Type*} (doc : Document ν) where
  xmlGetProp : ν → Text → Option Text
  xmlNodeListGetString : List ν → Option Text
  isSome_xmlGetProp : ∀ cur prop, (xmlGetProp cur prop).isSome = doc.hasProp cur prop
  isSome_xmlNodeListGetString : ∀ list, (xmlNodeListGetString list).isSome = doc.hasString list

structure XmlParser (ν : Type*) where
  doc : Document ν
  cur : ν
  root_eq : doc.root = some cur

inductive Outcome
  | returnZero
  | returnOne (printed : Option Text)
  | noReturn
  | nullRead
  | overrun
  deriving DecidableEq, Repr

def bufSize : ℕ := 100

/-- The tokens that the calls of `strtok_r` with `DELIM` return one after the other. -/
def strtok (buf : Text) : List Text := words (· == '@') buf

section Lookup

variable {ν : Type*}

/-- `open_xmlfile` on what `xmlParseFile` returned: `none` where it returns 0. -/
def openXmlfile (doc : Option (Document ν)) (check : Text) : Option (XmlParser ν) :=
  match doc with
  | none => none
  | some doc => match h : doc.root with
    | none => none
    | some cur => if doc.name cur = some check then some ⟨doc, cur, h⟩ else none

/-- `!xmlStrcmp(cur->name, pattern)` -/
def Document.named (doc : Document ν) (pattern : Text) (cur : ν) : Bool := doc.name cur = some pattern

def findSubnode (doc : Document ν) (cur : ν) (pattern : Text) : Option ν :=
  (doc.xmlChildrenNode cur).find? (doc.named pattern)

/-- The loop that looks for the `index`-th child with the name of the first token: where it
leaves `cur`, and the count. -/
def countLoop (doc : Document ν) (token : Text) (index : ℤ) : List ν → ℤ → List ν × ℤ
  | [], i => ([], i)
  | cur :: next, i =>
    if doc.named token cur then
      if i + 1 = index then (cur :: next, i + 1) else countLoop doc token index next (i + 1)
    else countLoop doc token index next i

/-- The key that is printed; `NULL` is printed as such. -/
def key {doc : Document ν} (lib : Library doc) (cur : ν) : Option Text → Option Text
  | none => lib.xmlNodeListGetString (doc.xmlChildrenNode cur)
  | some prop => lib.xmlGetProp cur prop

/-- The `while (token)` loop and the final branch. -/
def tokenLoop {doc : Document ν} (lib : Library doc) (prop : Option Text) : Option ν → List Text → Outcome
  | none, [] => .noReturn
  | none, _ :: _ => .nullRead
  | some cur, [] => .returnOne (key lib cur prop)
  | some cur, token :: tokens => match findSubnode doc cur token with
    | none => .returnZero
    | some cur => tokenLoop lib prop (some cur) tokens

def getXmlNode (xml : XmlParser ν) (lib : Library xml.doc) (pattern : Text) (prop : Option Text) (index : ℤ) :
    Outcome :=
  if bufSize < pattern.length + 1 then .overrun else
  let children := xml.doc.xmlChildrenNode xml.cur
  let (cur, i) := match strtok pattern with
    | [] => (children, 0)
    | token :: _ => countLoop xml.doc token index children 0
  if i ≠ index then .returnZero else
  tokenLoop lib prop cur.head? (strtok pattern).tail

theorem openXmlfile_eq_some_iff (doc : Option (Document ν)) (check : Text) (xml : XmlParser ν) :
    openXmlfile doc check = some xml ↔ doc = some xml.doc ∧ xml.doc.name xml.cur = some check := by
  obtain ⟨parsed, cur, hroot⟩ := xml
  cases doc with
  | none => simp [openXmlfile]
  | some doc =>
    rw [openXmlfile]
    constructor
    · intro h
      split at h
      · cases h
      · next hroot' =>
        split at h
        · next hname =>
          cases h
          exact ⟨rfl, hname⟩
        · cases h
    · rintro ⟨hdoc, hname⟩
      cases hdoc
      split
      · next hnone =>
        rw [hroot] at hnone
        cases hnone
      · next cur' hroot' =>
        obtain rfl : cur' = cur := Option.some.inj (hroot'.symm.trans hroot)
        exact if_pos hname

section Count

variable (doc : Document ν) (token : Text) (children : List ν)

theorem countLoop_nonpos {index : ℤ} {i : ℤ} (h : index ≤ i) :
    countLoop doc token index children i = ([], i + (children.filter (doc.named token)).length) := by
  induction children generalizing i with
  | nil => simp [countLoop]
  | cons cur next ih =>
    rw [countLoop]
    cases hname : doc.named token cur with
    | true =>
      rw [if_pos rfl, if_neg (by omega), ih (by omega), List.filter_cons_of_pos hname,
        List.length_cons]
      congr 1
      omega
    | false => rw [if_neg (by simp), ih h, List.filter_cons_of_neg (by simp [hname])]

/-- The loop stops at the match that it was asked for, and otherwise counts too few. -/
theorem countLoop_spec (k : ℕ) {i index : ℤ} (h : index = i + k + 1) :
    (∃ cur next, (children.filter (doc.named token))[k]? = some cur ∧
        countLoop doc token index children i = (cur :: next, index)) ∨
      ((children.filter (doc.named token))[k]? = none ∧
        (countLoop doc token index children i).2 ≠ index) := by
  induction children generalizing i k with
  | nil =>
    right
    refine ⟨rfl, ?_⟩
    simp only [countLoop]
    omega
  | cons cur next ih =>
    rw [countLoop]
    cases hname : doc.named token cur with
    | true =>
      rw [if_pos rfl, List.filter_cons_of_pos hname]
      cases k with
      | zero =>
        rw [if_pos (by omega)]
        exact .inl ⟨cur, next, rfl, by rw [h]; simp⟩
      | succ k =>
        rw [if_neg (by omega), List.getElem?_cons_succ]
        exact ih k (by omega)
    | false =>
      rw [if_neg (by simp), List.filter_cons_of_neg (by simp [hname])]
      exact ih k h

end Count

section Run

variable (xml : XmlParser ν) (lib : Library xml.doc)

theorem tokenLoop_some (prop : Option Text) (cur : ν) (tokens : List Text) :
    tokenLoop lib prop (some cur) tokens = match tokens.foldlM (findSubnode xml.doc) cur with
      | none => .returnZero
      | some em => .returnOne (key lib em prop) := by
  induction tokens generalizing cur with
  | nil => rfl
  | cons token tokens ih =>
    rw [tokenLoop, List.foldlM_cons]
    cases hfind : findSubnode xml.doc cur token with
    | none => rfl
    | some next => exact ih next

/-- The node that the two loops find when they look for the `k + 1`-st child of the root. -/
def found (token : Text) (tokens : List Text) (k : ℕ) : Option ν :=
  ((xml.doc.xmlChildrenNode xml.cur).filter (xml.doc.named token))[k]? >>= tokens.foldlM (findSubnode xml.doc)

theorem getXmlNode_succ {pattern : Text} (hlen : pattern.length < bufSize)
    {token : Text} {tokens : List Text} (htokens : strtok pattern = token :: tokens)
    (prop : Option Text) (k : ℕ) :
    getXmlNode xml lib pattern prop (k + 1) = match found xml token tokens k with
      | none => .returnZero
      | some em => .returnOne (key lib em prop) := by
  have hindex : (k : ℤ) + 1 = 0 + k + 1 := by omega
  have hcount := countLoop_spec xml.doc token (xml.doc.xmlChildrenNode xml.cur) k hindex
  simp only [getXmlNode, htokens, if_neg (show ¬ bufSize < pattern.length + 1 by omega), found]
  rcases hcount with ⟨cur, next, hcur, hloop⟩ | ⟨hcur, hloop⟩
  · rw [hcur, hloop, if_neg (fun h => h rfl)]
    exact tokenLoop_some xml lib prop cur tokens
  · rw [hcur, if_pos hloop]
    rfl

/-- The call ends at a `return`, without a field of a `NULL` node having been read. -/
def Outcome.LeavesByReturn : Outcome → Prop
  | .returnZero => True
  | .returnOne _ => True
  | _ => False

theorem leavesByReturn_getXmlNode_succ {pattern : Text}
    (hlen : pattern.length < bufSize) (prop : Option Text) (k : ℕ) :
    (getXmlNode xml lib pattern prop (k + 1)).LeavesByReturn := by
  cases htokens : strtok pattern with
  | nil =>
    simp only [getXmlNode, htokens, if_neg (show ¬ bufSize < pattern.length + 1 by omega)]
    rw [if_pos (by omega)]
    trivial
  | cons token tokens =>
    rw [getXmlNode_succ xml lib hlen htokens prop k]
    cases found xml token tokens k <;> trivial

theorem tokenLoop_none (prop : Option Text) (tokens : List Text) :
    ¬ (tokenLoop lib prop none tokens).LeavesByReturn := by
  cases tokens with
  | nil => exact id
  | cons token tokens => exact id

theorem leavesByReturn_getXmlNode_zero {pattern : Text}
    (hlen : pattern.length < bufSize) (prop : Option Text) :
    (getXmlNode xml lib pattern prop 0).LeavesByReturn ↔
      ∃ child ∈ xml.doc.xmlChildrenNode xml.cur, ∀ token ∈ (strtok pattern).head?, xml.doc.named token child := by
  have hbuf : ¬ bufSize < pattern.length + 1 := by omega
  cases htokens : strtok pattern with
  | nil =>
    simp only [getXmlNode, htokens, if_neg hbuf, ne_eq, not_true_eq_false, if_false, List.tail_nil]
    cases xml.doc.xmlChildrenNode xml.cur with
    | nil => simp [tokenLoop_none]
    | cons child children => simp [tokenLoop, Outcome.LeavesByReturn]
  | cons token tokens =>
    simp only [getXmlNode, htokens, if_neg hbuf, countLoop_nonpos xml.doc token _ (Int.le_refl 0), Int.zero_add]
    by_cases hmatch : ∃ child ∈ xml.doc.xmlChildrenNode xml.cur, xml.doc.named token child
    · obtain ⟨child, hmem, hname⟩ := hmatch
      have hpos := List.length_pos_of_mem (List.mem_filter.mpr ⟨hmem, hname⟩)
      rw [if_pos (by omega)]
      simp only [Outcome.LeavesByReturn, true_iff]
      exact ⟨child, hmem, by simpa using hname⟩
    · have hnil : (xml.doc.xmlChildrenNode xml.cur).filter (xml.doc.named token) = [] := by
        rw [List.filter_eq_nil_iff]
        intro child hmem hname
        exact hmatch ⟨child, hmem, hname⟩
      rw [hnil, if_neg (by simp)]
      simpa [tokenLoop_none] using hmatch

/-- The call leaves through a `return` exactly when the index is not zero, or the root has
a child that the first token, if there is one, names. -/
theorem getXmlNode_leavesByReturn_iff (pattern : Text)
    (hlen : pattern.length < bufSize) (prop : Option Text) (index : ℤ) :
    (getXmlNode xml lib pattern prop index).LeavesByReturn ↔ (index = 0 →
      ∃ child ∈ xml.doc.xmlChildrenNode xml.cur, ∀ token ∈ (strtok pattern).head?, xml.doc.named token child) := by
  have hbuf : ¬ bufSize < pattern.length + 1 := by omega
  by_cases hzero : index = 0
  · rw [hzero, leavesByReturn_getXmlNode_zero xml lib hlen prop]
    simp
  · have hleaves : (getXmlNode xml lib pattern prop index).LeavesByReturn := by
      by_cases hneg : index ≤ 0
      · cases htokens : strtok pattern with
        | nil =>
          simp only [getXmlNode, htokens, if_neg hbuf]
          rw [if_pos (Ne.symm hzero)]
          trivial
        | cons token tokens =>
          simp only [getXmlNode, htokens, if_neg hbuf, countLoop_nonpos xml.doc token _ hneg]
          rw [if_pos (by omega)]
          trivial
      · obtain ⟨k, rfl⟩ : ∃ k : ℕ, index = k + 1 := ⟨(index - 1).toNat, by omega⟩
        exact leavesByReturn_getXmlNode_succ xml lib hlen prop k
    simp [hleaves, hzero]

end Run

end Lookup

/-- `<ddos/>` -/
def emptyDocument : Document Unit where
  root := some ()
  name _ := some ['d', 'd', 'o', 's']
  isElement _ := true
  xmlChildrenNode _ := []
  hasProp _ _ := false
  hasString _ := false
  isElement_of_root _ _ := rfl
  nodup _ _ := List.nodup_nil
  parent_eq _ _ _ _ _ _ := rfl
  hasString_nil := rfl

def emptyRoot : XmlParser Unit := ⟨emptyDocument, (), rfl⟩

def noValues {ν : Type*} (doc : Document ν) (hprop : ∀ cur prop, doc.hasProp cur prop = false)
    (hstring : ∀ list, doc.hasString list = false) : Library doc where
  xmlGetProp _ _ := none
  xmlNodeListGetString _ := none
  isSome_xmlGetProp cur prop := (hprop cur prop).symm
  isSome_xmlNodeListGetString list := (hstring list).symm

def emptyRootLibrary : Library emptyRoot.doc := noValues emptyDocument (fun _ _ => rfl) (fun _ => rfl)

theorem getXmlNode_leavesByReturn_first :
    (getXmlNode emptyRoot emptyRootLibrary ['@'] none 1).LeavesByReturn :=
  (getXmlNode_leavesByReturn_iff emptyRoot emptyRootLibrary ['@'] (by decide) none 1).mpr (fun h => by cases h)

/-- Index 0 reaches the token loop without a node. -/
theorem getXmlNode_zero_reads_null :
    ¬ ∀ (xml : XmlParser Unit) (lib : Library xml.doc) (pattern : Text) (prop : Option Text) (index : ℤ),
      pattern.length < bufSize → (getXmlNode xml lib pattern prop index).LeavesByReturn := by
  intro h
  have hnull : getXmlNode emptyRoot emptyRootLibrary ['a', '@', 'b'] none 0 = .nullRead := by decide +kernel
  have hleaves := h emptyRoot emptyRootLibrary ['a', '@', 'b'] none 0 (by decide)
  rw [hnull] at hleaves
  exact hleaves

end WorkCode.XmlLookup
