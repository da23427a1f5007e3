import WorkCode.XmlLookup

/-!
# Which chains the XML lookup finds

A path of names stands for a chain of elements below the root. The lookup compares names
only: it counts nodes of every kind, keeps the first child of each name, and prints
whatever the library returns, also when that is no value at all.
-/

namespace WorkCode.XmlLookup

open TextLines TreeDescent

/-- A pattern of non-empty components without the delimiter. -/
structure Pattern where
  first : Text
  rest : List Text
  component : ∀ t ∈ first :: rest, t ≠ [] ∧ '@' ∉ t

def Pattern.text (pattern : Pattern) : Text := ['@'].intercalate (pattern.first :: pattern.rest)

theorem strtok_text (pattern : Pattern) : strtok pattern.text = pattern.first :: pattern.rest := by
  have hsplit : pattern.text.splitOn '@' = pattern.first :: pattern.rest :=
    List.splitOn_intercalate _ (fun t ht => (pattern.component t ht).2) (by simp)
  rw [strtok, words, ← List.splitOn_eq_splitOnP, hsplit, List.filter_eq_self]
  intro t ht
  simpa using (pattern.component t ht).1

section Chains

variable {ν : Type*}

def elementStep (doc : Document ν) (cur : ν) (name : Text) (child : ν) : Prop :=
  child ∈ doc.xmlChildrenNode cur ∧ doc.isElement child = true ∧ doc.named name child = true

/-- The first child node with the name, of whatever kind. -/
def firstNamed (doc : Document ν) (cur : ν) (name : Text) (child : ν) : Prop :=
  ∃ before after, doc.xmlChildrenNode cur = before ++ child :: after ∧ doc.named name child = true ∧
    ∀ node ∈ before, doc.named name node = false

def firstStep (doc : Document ν) (cur : ν) (name : Text) (child : ν) : Prop :=
  firstNamed doc cur name child ∧ doc.isElement child = true

def namedNodes (xml : XmlParser ν) (name : Text) : List ν :=
  (xml.doc.xmlChildrenNode xml.cur).filter (xml.doc.named name)

def namedElements (xml : XmlParser ν) (name : Text) : List ν :=
  (namedNodes xml name).filter xml.doc.isElement

/-- A chain of elements that the pattern describes: from the `k + 1`-st child element of the
root with the first name down to `em`. -/
def ElementChain (xml : XmlParser ν) (pattern : Pattern) (k : ℕ) (em : ν) : Prop :=
  ∃ e₀, (namedElements xml pattern.first)[k]? = some e₀ ∧ Path (elementStep xml.doc) e₀ pattern.rest em

/-- No text, comment or other node with the first name stands among the root's children up
to the one that is counted. -/
def CountsElements (xml : XmlParser ν) (pattern : Pattern) (k : ℕ) : Prop :=
  ∀ node ∈ (namedNodes xml pattern.first).take (k + 1), xml.doc.isElement node = true

theorem findSubnode_eq_some_iff {doc : Document ν} {cur child : ν} {name : Text} :
    findSubnode doc cur name = some child ↔ firstNamed doc cur name child := by
  rw [findSubnode, List.find?_eq_some_iff_append, firstNamed]
  simp only [Bool.not_eq_eq_eq_not, Bool.not_true]
  constructor
  · rintro ⟨hname, before, after, hchildren, hbefore⟩
    exact ⟨before, after, hchildren, hname, hbefore⟩
  · rintro ⟨before, after, hchildren, hname, hbefore⟩
    exact ⟨hname, before, after, hchildren, hbefore⟩

theorem firstNamed.mem {doc : Document ν} {cur child : ν} {name : Text} (h : firstNamed doc cur name child) :
    child ∈ doc.xmlChildrenNode cur := by
  obtain ⟨before, after, hchildren, -⟩ := h
  rw [hchildren]
  exact List.mem_append_right _ List.mem_cons_self

theorem firstStep.elementStep {doc : Document ν} {cur child : ν} {name : Text} (h : firstStep doc cur name child) :
    elementStep doc cur name child := by
  have hmem := h.1.mem
  obtain ⟨-, -, -, hname, -⟩ := h.1
  exact ⟨hmem, h.2, hname⟩

theorem elements_of_path {doc : Document ν} {e₀ em : ν} {tokens : List Text} (h : Path (elementStep doc) e₀ tokens em)
    (he₀ : doc.isElement e₀ = true) : doc.isElement em = true ∧
      Path (fun cur name child => doc.isElement cur = true ∧ elementStep doc cur name child) e₀ tokens em := by
  induction h with
  | nil => exact ⟨he₀, .nil⟩
  | cons head tail ih =>
    obtain ⟨hem, hpath⟩ := ih head.2.1
    exact ⟨hem, .cons ⟨he₀, head⟩ hpath⟩

theorem CountsElements.getElem?_eq {xml : XmlParser ν} {pattern : Pattern} {k : ℕ}
    (h : CountsElements xml pattern k) :
    (namedElements xml pattern.first)[k]? = (namedNodes xml pattern.first)[k]? :=
  getElem?_filter_of_take h

/-- The nodes that the names lead to when nodes of every kind count: the `k + 1`-st child node of the
root with the first name, and from it the first child node with each further name. -/
structure FirstNodes (xml : XmlParser ν) (pattern : Pattern) (k : ℕ) (e₀ em : ν) : Prop where
  start : (namedNodes xml pattern.first)[k]? = some e₀
  descent : Path (firstNamed xml.doc) e₀ pattern.rest em

theorem found_eq_some_iff (xml : XmlParser ν) (pattern : Pattern) (k : ℕ) (em : ν) :
    found xml pattern.first pattern.rest k = some em ↔ ∃ e₀, FirstNodes xml pattern k e₀ em := by
  simp only [found, Option.bind_eq_bind, Option.bind_eq_some_iff, foldlM_eq_some_iff, findSubnode_eq_some_iff]
  constructor
  · rintro ⟨e₀, hstart, hdescent⟩
    exact ⟨e₀, hstart, hdescent⟩
  · rintro ⟨e₀, h⟩
    exact ⟨e₀, h.start, h.descent⟩

theorem getXmlNode_of_firstNodes {xml : XmlParser ν} (lib : Library xml.doc) {pattern : Pattern}
    (hlen : pattern.text.length < bufSize) {k : ℕ} {e₀ em : ν}
    (h : FirstNodes xml pattern k e₀ em) (prop : Option Text) :
    getXmlNode xml lib pattern.text prop (k + 1) = .returnOne (key lib em prop) := by
  rw [getXmlNode_succ xml lib hlen (strtok_text pattern) prop k, (found_eq_some_iff xml pattern k em).mpr ⟨e₀, h⟩]

/-- The lookup returns 1 and prints the value of the end of the chain, when the chain
takes the first child of each name and only elements have been counted. -/
theorem getXmlNode_firstChain (xml : XmlParser ν) (lib : Library xml.doc) (pattern : Pattern)
    (hlen : pattern.text.length < bufSize) (prop : Option Text) (k : ℕ) (e₀ em : ν)
    (hcount : CountsElements xml pattern k) (hfirst : (namedElements xml pattern.first)[k]? = some e₀)
    (hchain : Path (firstStep xml.doc) e₀ pattern.rest em) :
    getXmlNode xml lib pattern.text prop (k + 1) = .returnOne (key lib em prop) := by
  rw [hcount.getElem?_eq] at hfirst
  have hdescent : Path (firstNamed xml.doc) e₀ pattern.rest em := hchain.mono fun cur name child h => h.1
  exact getXmlNode_of_firstNodes lib hlen ⟨hfirst, hdescent⟩ prop

end Chains

section Siblings

inductive SiblingNode
  | ddos
  | a
  | first
  | second
  | c
  deriving DecidableEq

/-- `<ddos><a><b p="x"/><b p="y"><c/></b></a></ddos>`: of two siblings of the same name only the second
has a child element. -/
def siblingsDocument : Document SiblingNode where
  root := some .ddos
  name
    | .ddos => some ['d', 'd', 'o', 's']
    | .a => some ['a']
    | .first => some ['b']
    | .second => some ['b']
    | .c => some ['c']
  isElement _ := true
  xmlChildrenNode
    | .ddos => [.a]
    | .a => [.first, .second]
    | .second => [.c]
    | _ => []
  hasProp cur prop := (cur = .first ∨ cur = .second) ∧ prop = ['p']
  hasString _ := false
  isElement_of_root _ _ := rfl
  nodup := by
    rintro ⟨⟩ - <;> decide
  parent_eq := by
    rintro ⟨⟩ ⟨⟩ ⟨⟩ <;> decide
  hasString_nil := rfl

def siblings : XmlParser SiblingNode := ⟨siblingsDocument, .ddos, rfl⟩

def siblingsLibrary : Library siblings.doc where
  xmlGetProp cur prop :=
    if prop = ['p'] then
      if cur = .first then some ['x'] else if cur = .second then some ['y'] else none
    else none
  xmlNodeListGetString _ := none
  isSome_xmlGetProp := by
    intro cur prop
    by_cases hprop : prop = ['p'] <;> cases cur <;> simp [siblings, siblingsDocument, hprop]
  isSome_xmlNodeListGetString _ := rfl

def toSibling : Pattern := ⟨['a'], [['b']], by decide⟩

def belowSibling : Pattern := ⟨['a'], [['b'], ['c']], by decide⟩

theorem firstStep_first : firstStep siblings.doc .a ['b'] .first :=
  ⟨⟨[], [.second], rfl, rfl, by simp⟩, rfl⟩

theorem getXmlNode_firstChain_siblings :
    getXmlNode siblings siblingsLibrary toSibling.text (some ['p']) 1 = .returnOne (some ['x']) :=
  getXmlNode_firstChain siblings siblingsLibrary toSibling (by decide) (some ['p']) 0 .a .first
    (by intro node hnode; rfl) rfl (.cons firstStep_first .nil)

/-- The second sibling is never looked at. -/
theorem getXmlNode_misses_chain :
    ¬ ∀ (xml : XmlParser SiblingNode) (lib : Library xml.doc) (pattern : Pattern) (prop : Option Text) (k : ℕ),
      pattern.text.length < bufSize →
      (∃ em, ElementChain xml pattern k em ∧ (prop.isSome → (key lib em prop).isSome)) →
      ∃ printed, getXmlNode xml lib pattern.text prop (k + 1) = .returnOne printed := by
  intro h
  have hchain : ElementChain siblings belowSibling 0 .c := by
    refine ⟨.a, rfl, .cons (b := .second) ?_ (.cons ?_ .nil)⟩
    · exact ⟨.tail _ (.head _), rfl, rfl⟩
    · exact ⟨.head _, rfl, rfl⟩
  obtain ⟨printed, hprinted⟩ := h siblings siblingsLibrary belowSibling none 0 (by decide) ⟨_, hchain, by simp⟩
  have hzero : getXmlNode siblings siblingsLibrary belowSibling.text none 1 = .returnZero := by decide +kernel
  rw [show ((0 : ℕ) : ℤ) + 1 = 1 from rfl, hzero] at hprinted
  cases hprinted

end Siblings

section Soundness

variable {ν : Type*}

/-- A result of 1 with this key printed is possible. Where the language leaves the outcome
open, everything is. -/
def Outcome.MayPrint : Outcome → Option Text → Prop
  | .returnZero, _ => False
  | .returnOne printed, shown => shown = printed
  | _, _ => True

/-- Whatever the lookup prints is a value at the end of an element chain for the pattern. -/
def Sound (xml : XmlParser ν) (lib : Library xml.doc) (pattern : Pattern) (prop : Option Text) (k : ℕ) : Prop :=
  ∀ shown, (getXmlNode xml lib pattern.text prop (k + 1)).MayPrint shown →
    ∃ em value, ElementChain xml pattern k em ∧ key lib em prop = some value ∧ shown = some value

/-- Only elements are counted up to `e₀`, and only elements are passed from there to `em`. -/
structure OnlyElements (xml : XmlParser ν) (pattern : Pattern) (k : ℕ) (e₀ em : ν) : Prop where
  counts : CountsElements xml pattern k
  descent : Path (firstStep xml.doc) e₀ pattern.rest em

def Document.hasValue (doc : Document ν) (cur : ν) : Option Text → Bool
  | none => doc.hasString (doc.xmlChildrenNode cur)
  | some prop => doc.hasProp cur prop

theorem isSome_key {doc : Document ν} (lib : Library doc) (cur : ν) (prop : Option Text) :
    (key lib cur prop).isSome = doc.hasValue cur prop := by
  cases prop with
  | none => exact lib.isSome_xmlNodeListGetString _
  | some prop => exact lib.isSome_xmlGetProp cur prop

/-- Values by which one node is told from all others. -/
def marking [DecidableEq ν] (doc : Document ν) (em : ν) : Library doc where
  xmlGetProp cur prop := if doc.hasProp cur prop then some (if cur = em then ['x'] else []) else none
  xmlNodeListGetString list :=
    if doc.hasString list then some (if list = doc.xmlChildrenNode em then ['x'] else []) else none
  isSome_xmlGetProp cur prop := by
    cases h : doc.hasProp cur prop <;> simp
  isSome_xmlNodeListGetString list := by
    cases h : doc.hasString list <;> simp

theorem key_marking_self [DecidableEq ν] {doc : Document ν} {em : ν} {prop : Option Text}
    (h : doc.hasValue em prop = true) : key (marking doc em) em prop = some ['x'] := by
  cases prop with
  | none =>
    rw [Document.hasValue] at h
    simp [key, marking, h]
  | some prop =>
    rw [Document.hasValue] at h
    simp [key, marking, h]

/-- Elements with the same string have a child in common, unless they have none. -/
theorem eq_of_key_marking [DecidableEq ν] {doc : Document ν} {em cur : ν} {prop : Option Text}
    (hcur : doc.isElement cur = true) (h : key (marking doc em) cur prop = some ['x']) : em = cur := by
  cases prop with
  | none =>
    simp only [key, marking, Option.ite_none_right_eq_some, Option.some.injEq, ite_eq_left_iff, reduceCtorEq,
      imp_false, not_not] at h
    obtain ⟨hstring, hchildren⟩ := h
    cases hcase : doc.xmlChildrenNode cur with
    | nil =>
      rw [hcase, doc.hasString_nil] at hstring
      cases hstring
    | cons child rest =>
      have hmem : child ∈ doc.xmlChildrenNode cur := by
        rw [hcase]
        exact List.mem_cons_self
      exact doc.parent_eq cur em child hcur hmem (hchildren ▸ hmem)
  | some prop =>
    simp only [key, marking, Option.ite_none_right_eq_some, Option.some.injEq, ite_eq_left_iff, reduceCtorEq,
      imp_false, not_not] at h
    exact h.2.symm

section

variable {xml : XmlParser ν} {pattern : Pattern} {k : ℕ} {e₀ em : ν}

theorem OnlyElements.elementChain (h : OnlyElements xml pattern k e₀ em) (hfirst : FirstNodes xml pattern k e₀ em) :
    ElementChain xml pattern k em := by
  refine ⟨e₀, ?_, h.descent.mono fun cur name child => firstStep.elementStep⟩
  rw [h.counts.getElem?_eq, hfirst.start]

/-- A chain of elements to the node that the lookup reaches is the way that the lookup took. -/
theorem onlyElements_of_elementChain (hchain : ElementChain xml pattern k em)
    (hfirst : FirstNodes xml pattern k e₀ em) : OnlyElements xml pattern k e₀ em := by
  obtain ⟨e₀', hstart, hdescent⟩ := hchain
  have he₀' : xml.doc.isElement e₀' = true := (List.mem_filter.mp (List.mem_of_getElem? hstart)).2
  have hunique : ∀ cur cur' name child, xml.doc.isElement cur = true ∧ elementStep xml.doc cur name child →
      firstNamed xml.doc cur' name child → cur = cur' := by
    intro cur cur' name child hstep hstep'
    exact (xml.doc.parent_eq cur cur' child hstep.1 hstep.2.1 hstep'.mem).symm
  obtain ⟨rfl, hboth⟩ := Path.merge hunique (elements_of_path hdescent he₀').2 hfirst.descent
  have hnodup := (xml.doc.nodup xml.cur (xml.doc.isElement_of_root xml.cur xml.root_eq)).filter
    (xml.doc.named pattern.first)
  exact ⟨forall_mem_take_of_getElem?_filter hnodup hfirst.start hstart,
    hboth.mono fun cur name child h => ⟨h.2, h.1.2.2.1⟩⟩

theorem length_lt_of_sound {lib : Library xml.doc} {prop : Option Text} (h : Sound xml lib pattern prop k) :
    pattern.text.length < bufSize := by
  by_contra hlong
  have hoverrun : getXmlNode xml lib pattern.text prop (k + 1) = .overrun := by
    rw [getXmlNode, if_pos (by omega)]
  obtain ⟨em, value, -, -, hshown⟩ := h none (by rw [hoverrun]; trivial)
  cases hshown

end

/-- The lookup is sound, whatever the values are that the library returns, exactly when the pattern
fits its buffer and the nodes that the names lead to, if there are any, are elements, with
no other node counted before them, and the last one has a value. -/
theorem sound_iff (xml : XmlParser ν) (pattern : Pattern) (prop : Option Text) (k : ℕ) :
    (∀ lib : Library xml.doc, Sound xml lib pattern prop k) ↔ pattern.text.length < bufSize ∧
      ∀ e₀ em, FirstNodes xml pattern k e₀ em →
        OnlyElements xml pattern k e₀ em ∧ xml.doc.hasValue em prop = true := by
  classical
  constructor
  · intro h
    have hlen := length_lt_of_sound (h (marking xml.doc xml.cur))
    refine ⟨hlen, ?_⟩
    intro e₀ em hfirst
    have hprints := getXmlNode_of_firstNodes (marking xml.doc em) hlen hfirst prop
    obtain ⟨em', value, hchain, hvalue', hvalue⟩ := h (marking xml.doc em) (key (marking xml.doc em) em prop)
      (by rw [hprints]; rfl)
    have hhas : xml.doc.hasValue em prop = true := by
      rw [← isSome_key (marking xml.doc em), hvalue]
      rfl
    obtain rfl : em = em' := by
      obtain ⟨e₀', hstart, hdescent⟩ := hchain
      have he₀' : xml.doc.isElement e₀' = true := (List.mem_filter.mp (List.mem_of_getElem? hstart)).2
      rw [key_marking_self hhas, Option.some.injEq] at hvalue
      exact eq_of_key_marking (elements_of_path hdescent he₀').1 (hvalue'.trans (congrArg some hvalue.symm))
    exact ⟨onlyElements_of_elementChain hchain hfirst, hhas⟩
  · rintro ⟨hlen, h⟩ lib shown hprint
    rw [getXmlNode_succ xml lib hlen (strtok_text pattern) prop k] at hprint
    cases hfound : found xml pattern.first pattern.rest k with
    | none =>
      rw [hfound] at hprint
      cases hprint
    | some em =>
      rw [hfound] at hprint
      obtain ⟨e₀, hfirst⟩ := (found_eq_some_iff xml pattern k em).mp hfound
      obtain ⟨honly, hhas⟩ := h e₀ em hfirst
      rw [← isSome_key lib] at hhas
      obtain ⟨value, hvalue⟩ := Option.isSome_iff_exists.mp hhas
      have hshown : shown = some value := Eq.trans hprint hvalue
      exact ⟨em, value, honly.elementChain hfirst, hvalue, hshown⟩

end Soundness

section Missing

inductive MainNode
  | ddos
  | object
  | userScore
  | cltSyn
  deriving DecidableEq

/-- `<ddos><object><user_score><clt_syn/></user_score></object></ddos>`: the innermost element lacks the
attribute that `main` asks for. -/
def withoutTypeDocument : Document MainNode where
  root := some .ddos
  name
    | .ddos => some "ddos".toList
    | .object => some "object".toList
    | .userScore => some "user_score".toList
    | .cltSyn => some "clt_syn".toList
  isElement _ := true
  xmlChildrenNode
    | .ddos => [.object]
    | .object => [.userScore]
    | .userScore => [.cltSyn]
    | .cltSyn => []
  hasProp _ _ := false
  hasString _ := false
  isElement_of_root _ _ := rfl
  nodup := by
    rintro ⟨⟩ - <;> decide
  parent_eq := by
    rintro ⟨⟩ ⟨⟩ ⟨⟩ <;> decide
  hasString_nil := rfl

def withoutType : XmlParser MainNode := ⟨withoutTypeDocument, .ddos, rfl⟩

def withoutTypeLibrary : Library withoutType.doc := noValues withoutTypeDocument (fun _ _ => rfl) (fun _ => rfl)

def mainPattern : Pattern :=
  ⟨"object".toList, ["user_score".toList, "clt_syn".toList], by decide +kernel⟩

/-- A missing attribute is printed as `NULL` and reported as found. -/
theorem withoutType_not_sound :
    ¬ ∀ (xml : XmlParser MainNode) (lib : Library xml.doc) (pattern : Pattern) (prop : Option Text) (k : ℕ),
      Sound xml lib pattern prop k := by
  intro h
  have hone : getXmlNode withoutType withoutTypeLibrary mainPattern.text (some "type".toList) 1 = .returnOne none := by
    decide +kernel
  obtain ⟨em, value, -, -, hshown⟩ := h withoutType withoutTypeLibrary mainPattern (some "type".toList) 0 none
    (by rw [show ((0 : ℕ) : ℤ) + 1 = 1 from rfl, hone]; rfl)
  cases hshown

end Missing

end WorkCode.XmlLookup
