import Mathlib.Algebra.BigOperators.Ring.Finset

/-!
# A counter that is read and reset

Events of several clients reach one counter in some order. Some add one to it, some read it
and set it back, the others leave it alone. An order of the events is a list in which each
event stands with its client; the part of a client is its program.
-/

namespace WorkCode.Tallies

inductive Mark
  | adds
  | reads
  | passes
  deriving DecidableEq, Repr

section Counter

variable {α : Type*} (mark : α → Mark)

/-- The counter after the events. -/
def left : ℕ → List α → ℕ
  | n, [] => n
  | n, e :: es => match mark e with
    | .adds => left (n + 1) es
    | .reads => left 0 es
    | .passes => left n es

def readings : ℕ → List α → List (α × ℕ)
  | _, [] => []
  | n, e :: es => match mark e with
    | .adds => readings (n + 1) es
    | .reads => (e, n) :: readings 0 es
    | .passes => readings n es

/-- Additions are neither lost nor counted twice: each is in one reading or still there. -/
theorem sum_readings (n : ℕ) (es : List α) :
    ((readings mark n es).map Prod.snd).sum + left mark n es = n + es.countP (mark · = .adds) := by
  induction es generalizing n with
  | nil => simp [readings, left]
  | cons e es ih =>
    rw [readings, left, List.countP_cons]
    cases mark e with
    | adds =>
      rw [ih, if_pos (decide_eq_true rfl)]
      omega
    | reads =>
      have hrest := ih 0
      rw [List.map_cons, List.sum_cons, if_neg (by simp), Nat.add_assoc, hrest, Nat.zero_add]
      rfl
    | passes =>
      rw [ih, if_neg (by simp)]
      rfl

variable {mark} {n : ℕ} {es fs : List α} {e : α}

theorem left_append : left mark n (es ++ fs) = left mark (left mark n es) fs := by
  induction es generalizing n with
  | nil => rfl
  | cons e es ih =>
    rw [List.cons_append, left, left]
    cases mark e <;> exact ih

theorem readings_append :
    readings mark n (es ++ fs) = readings mark n es ++ readings mark (left mark n es) fs := by
  induction es generalizing n with
  | nil => rfl
  | cons e es ih =>
    rw [List.cons_append, readings, readings, left]
    cases mark e with
    | adds => exact ih
    | reads => exact congrArg _ ih
    | passes => exact ih

theorem readings_of_forall_ne_reads (h : ∀ e ∈ es, mark e ≠ .reads) : readings mark n es = [] := by
  induction es generalizing n with
  | nil => rfl
  | cons e es ih =>
    have htail := fun n => @ih n fun e he => h e (List.mem_cons_of_mem _ he)
    have hhead := h e List.mem_cons_self
    rw [readings]
    cases hmark : mark e with
    | adds => exact htail _
    | reads => exact absurd hmark hhead
    | passes => exact htail _

theorem left_of_forall_ne_reads (h : ∀ e ∈ es, mark e ≠ .reads) :
    left mark n es = n + es.countP (mark · = .adds) := by
  have hsum := sum_readings mark n es
  rw [readings_of_forall_ne_reads h, List.map_nil, List.sum_nil, Nat.zero_add] at hsum
  exact hsum

end Counter

section Clients

variable {ι α : Type*} [DecidableEq ι] {mark : α → Mark} {c d : ι} {es fs : List (ι × α)} {e : ι × α}

def ofClient (c : ι) (es : List (ι × α)) : List α := (es.filter (·.1 = c)).map Prod.snd

theorem ofClient_cons_self (c : ι) (a : α) (es : List (ι × α)) : ofClient c ((c, a) :: es) = a :: ofClient c es := by
  simp [ofClient]

theorem ofClient_cons_of_ne (h : e.1 ≠ c) : ofClient c (e :: es) = ofClient c es := by
  simp [ofClient, h]

theorem ofClient_append (c : ι) (es fs : List (ι × α)) : ofClient c (es ++ fs) = ofClient c es ++ ofClient c fs := by
  simp [ofClient]

theorem ofClient_eq_filterMap (c : ι) (es : List (ι × α)) :
    ofClient c es = es.filterMap fun e => if e.1 = c then some e.2 else none := by
  induction es with
  | nil => rfl
  | cons e es ih =>
    by_cases hc : e.1 = c
    · simp only [ofClient, List.filter_cons, hc, decide_true, if_true, List.map_cons, List.filterMap_cons, ← ih]
    · simp only [ofClient_cons_of_ne hc, List.filterMap_cons, hc, if_false, ih]

theorem mem_ofClient {a : α} : a ∈ ofClient c es ↔ (c, a) ∈ es := by
  simp [ofClient]

theorem snd_mem_ofClient (h : e ∈ es) : e.2 ∈ ofClient e.1 es := mem_ofClient.mpr h

theorem eq_nil_of_ofClient (h : ∀ c, ofClient c es = []) : es = [] := by
  rw [List.eq_nil_iff_forall_not_mem]
  intro e he
  have hmem := snd_mem_ofClient he
  rw [h] at hmem
  cases hmem

/-- Events that are as many as those of one client are all of that client. -/
theorem eq_map_ofClient (h : es.length ≤ (ofClient c es).length) : es = (ofClient c es).map (c, ·) := by
  have hfilter : es.filter (·.1 = c) = es := by
    apply List.filter_sublist.eq_of_length_le
    rwa [ofClient, List.length_map] at h
  rw [ofClient, hfilter, List.map_map]
  conv_lhs => rw [← List.map_id es]
  apply List.map_congr_left
  intro e he
  rw [← hfilter] at he
  have hc := of_decide_eq_true (List.mem_filter.mp he).2
  rw [← hc]
  rfl

theorem ofClient_map_of_ne (h : d ≠ c) (xs : List α) : ofClient c (xs.map (d, ·)) = [] := by
  induction xs with
  | nil => rfl
  | cons x xs ih => rw [List.map_cons, ofClient_cons_of_ne h, ih]

theorem sum_ofClient [Fintype ι] (f : α → ℕ) (es : List (ι × α)) :
    ∑ c, ((ofClient c es).map f).sum = (es.map (f ∘ Prod.snd)).sum := by
  induction es with
  | nil => simp [ofClient]
  | cons e es ih =>
    have hcons : ∀ c, ((ofClient c (e :: es)).map f).sum =
        (if e.1 = c then f e.2 else 0) + ((ofClient c es).map f).sum := by
      intro c
      by_cases h : e.1 = c
      · subst h
        rw [ofClient_cons_self, List.map_cons, List.sum_cons, if_pos rfl]
      · rw [ofClient_cons_of_ne h, if_neg h, Nat.zero_add]
    simp only [hcons]
    rw [Finset.sum_add_distrib, ih, Finset.sum_ite_eq, if_pos (Finset.mem_univ _), List.map_cons, List.sum_cons]
    rfl

theorem countP_eq_sum (p : α → Bool) (xs : List α) : xs.countP p = (xs.map fun a => if p a then 1 else 0).sum := by
  induction xs with
  | nil => rfl
  | cons x xs ih => rw [List.countP_cons, List.map_cons, List.sum_cons, ih, Nat.add_comm]

theorem sum_countP_ofClient [Fintype ι] (p : α → Bool) (es : List (ι × α)) :
    ∑ c, (ofClient c es).countP p = es.countP (p ∘ Prod.snd) := by
  simp only [countP_eq_sum]
  exact sum_ofClient (fun a => if p a then 1 else 0) es

def toldTo (mark : α → Mark) (n : ℕ) (es : List (ι × α)) (c : ι) : List ℕ :=
  ofClient c ((readings (mark ∘ Prod.snd) n es).map fun p => (p.1.1, p.2))

theorem length_toldTo (mark : α → Mark) (n : ℕ) (es : List (ι × α)) (c : ι) :
    (toldTo mark n es c).length = (ofClient c es).countP (mark · = .reads) := by
  induction es generalizing n with
  | nil => rfl
  | cons e es ih =>
    obtain ⟨d, a⟩ := e
    rw [toldTo, readings, Function.comp_apply]
    by_cases hd : d = c
    · subst hd
      rw [ofClient_cons_self, List.countP_cons]
      cases hmark : mark a with
      | adds => simpa [toldTo, hmark] using ih (n + 1)
      | reads => simpa [toldTo, hmark, ofClient_cons_self] using ih 0
      | passes => simpa [toldTo, hmark] using ih n
    · rw [ofClient_cons_of_ne hd]
      cases hmark : mark a with
      | adds => exact ih (n + 1)
      | reads => rw [List.map_cons, ofClient_cons_of_ne hd]; exact ih 0
      | passes => exact ih n

/-- All that the clients are told, and what is left, is what they have added. -/
theorem sum_toldTo [Fintype ι] (mark : α → Mark) (n : ℕ) (es : List (ι × α)) :
    ∑ c, (toldTo mark n es c).sum + left (mark ∘ Prod.snd) n es =
      n + ∑ c, (ofClient c es).countP (mark · = .adds) := by
  have hsum := sum_ofClient id ((readings (mark ∘ Prod.snd) n es).map fun p => (p.1.1, p.2))
  simp only [List.map_id, List.map_map] at hsum
  rw [sum_countP_ofClient (mark · = .adds) es]
  exact (congrArg (· + left (mark ∘ Prod.snd) n es) hsum).trans (sum_readings (mark ∘ Prod.snd) n es)

theorem forall_toldTo_iff {k n : ℕ} :
    (∀ c, ∀ m ∈ toldTo mark n es c, m = k) ↔ ∀ p ∈ readings (mark ∘ Prod.snd) n es, p.2 = k := by
  constructor
  · intro h p hp
    apply h p.1.1
    rw [toldTo, mem_ofClient]
    exact List.mem_map.mpr ⟨p, hp, rfl⟩
  · intro h c m hm
    rw [toldTo, mem_ofClient] at hm
    obtain ⟨p, hp, heq⟩ := List.mem_map.mp hm
    cases heq
    exact h p hp

end Clients

section Batches

variable {ι α : Type*} {mark : α → Mark} {us : List α} {r : α} {es : List (ι × α)}

theorem split_at_reads {as bs cs ds : List α} {x y : α} (h : as ++ x :: bs = cs ++ y :: ds)
    (has : ∀ a ∈ as, mark a ≠ .reads) (hcs : ∀ a ∈ cs, mark a ≠ .reads) (hx : mark x = .reads)
    (hy : mark y = .reads) : as = cs ∧ x = y ∧ bs = ds := by
  induction as generalizing cs with
  | nil =>
    cases cs with
    | nil => exact ⟨rfl, List.cons_eq_cons.mp h⟩
    | cons c cs =>
      rw [List.nil_append, List.cons_append, List.cons_eq_cons] at h
      rw [h.1] at hx
      exact absurd hx (hcs c List.mem_cons_self)
  | cons a as ih =>
    cases cs with
    | nil =>
      rw [List.nil_append, List.cons_append, List.cons_eq_cons] at h
      rw [← h.1] at hy
      exact absurd hy (has a List.mem_cons_self)
    | cons c cs =>
      rw [List.cons_append, List.cons_append, List.cons_eq_cons] at h
      obtain ⟨hhead, hparts⟩ := ih h.2 (fun a ha => has a (List.mem_cons_of_mem _ ha))
        fun a ha => hcs a (List.mem_cons_of_mem _ ha)
      exact ⟨by rw [h.1, hhead], hparts⟩

theorem exists_first_reads (h : ∃ e ∈ es, mark e.2 = .reads) :
    ∃ before e behind, es = before ++ e :: behind ∧ mark e.2 = .reads ∧ ∀ a ∈ before, mark a.2 ≠ .reads := by
  have hfind : (es.find? (mark ·.2 = .reads)).isSome := by simpa using h
  obtain ⟨e, he⟩ := Option.isSome_iff_exists.mp hfind
  obtain ⟨hread, before, behind, rfl, hbefore⟩ := List.find?_eq_some_iff_append.mp he
  exact ⟨before, e, behind, rfl, by simpa using hread, by simpa using hbefore⟩

theorem readings_flatMap (hus : ∀ u ∈ us, mark u = .adds) (hr : mark r = .reads) (order : List ι) :
    readings (mark ∘ Prod.snd) 0 (order.flatMap fun c => (us ++ [r]).map (c, ·)) =
      order.map fun c => ((c, r), us.length) := by
  induction order with
  | nil => rfl
  | cons c order ih =>
    have hadds : ∀ e ∈ us.map (c, ·), (mark ∘ Prod.snd) e = .adds := by
      intro e he
      obtain ⟨u, hu, rfl⟩ := List.mem_map.mp he
      exact hus u hu
    have hnoread : ∀ e ∈ us.map (c, ·), (mark ∘ Prod.snd) e ≠ .reads := by
      intro e he
      rw [hadds e he]
      decide
    have hcount : (us.map (c, ·)).countP (fun e => decide ((mark ∘ Prod.snd) e = .adds)) = us.length := by
      rw [List.countP_eq_length.mpr fun e he => decide_eq_true (hadds e he), List.length_map]
    rw [List.flatMap_cons, List.map_append, List.append_assoc, readings_append,
      readings_of_forall_ne_reads hnoread, left_of_forall_ne_reads hnoread, hcount, List.nil_append,
      List.map_singleton, List.singleton_append, readings, Function.comp_apply, hr, Nat.zero_add]
    rw [ih, List.map_cons]

variable [DecidableEq ι]

theorem adds_or_reads_of_batches (hus : ∀ u ∈ us, mark u = .adds) (hr : mark r = .reads)
    (h : ∀ c, ∃ n, ofClient c es = (List.replicate n (us ++ [r])).flatten) (e : ι × α) (he : e ∈ es) :
    mark e.2 = .adds ∨ mark e.2 = .reads := by
  obtain ⟨n, hn⟩ := h e.1
  have hmem := snd_mem_ofClient he
  rw [hn] at hmem
  obtain ⟨batch, hbatch, hin⟩ := List.mem_flatten.mp hmem
  rw [List.eq_of_mem_replicate hbatch] at hin
  rcases List.mem_append.mp hin with hin | hin
  · exact .inl (hus _ hin)
  · rw [List.mem_singleton.mp hin]
    exact .inr hr

theorem left_of_batches (hr : mark r = .reads)
    (h : ∀ c, ∃ n, ofClient c es = (List.replicate n (us ++ [r])).flatten) : left (mark ∘ Prod.snd) 0 es = 0 := by
  rcases List.eq_nil_or_concat es with rfl | ⟨before, e, rfl⟩
  · rfl
  · rw [List.concat_eq_append] at h ⊢
    obtain ⟨n, hn⟩ := h e.1
    rw [ofClient_append, ofClient_cons_self] at hn
    cases n with
    | zero => simp at hn
    | succ n =>
      rw [List.replicate_succ', List.flatten_append, List.flatten_singleton, ← List.append_assoc] at hn
      have hlast := (List.append_inj' hn rfl).2
      rw [left_append, left, Function.comp_apply, (List.cons_eq_cons.mp hlast).1, hr]
      rfl

/-- Before the first reading there is nothing but the batch of the client that reads, if there
are no more additions than in one batch. -/
theorem first_batch (hus : ∀ u ∈ us, mark u = .adds) (hr : mark r = .reads) {before behind : List (ι × α)} {c : ι}
    {x : α} (h : ∀ d, ∃ n, ofClient d (before ++ (c, x) :: behind) = (List.replicate n (us ++ [r])).flatten)
    (hx : mark x = .reads) (hbefore : ∀ a ∈ before, mark a.2 ≠ .reads) (hle : before.length ≤ us.length) :
    before = us.map (c, ·) ∧ x = r ∧ ∀ d, ∃ n, ofClient d behind = (List.replicate n (us ++ [r])).flatten := by
  have husne : ∀ u ∈ us, mark u ≠ .reads := by
    intro u hu
    rw [hus u hu]
    decide
  obtain ⟨n, hn⟩ := h c
  rw [ofClient_append, ofClient_cons_self] at hn
  cases n with
  | zero => simp at hn
  | succ n =>
    rw [List.replicate_succ, List.flatten_cons, List.append_assoc, List.singleton_append] at hn
    obtain ⟨hmine, rfl, hrest⟩ := split_at_reads hn
      (fun a ha => hbefore (c, a) (mem_ofClient.mp ha)) husne hx hr
    have hall := @eq_map_ofClient _ _ _ c before (by rwa [hmine])
    rw [hmine] at hall
    refine ⟨hall, rfl, fun d => ?_⟩
    by_cases hd : c = d
    · subst hd
      exact ⟨n, hrest⟩
    · obtain ⟨k, hk⟩ := h d
      rw [ofClient_append, hall, ofClient_map_of_ne hd, List.nil_append, ofClient_cons_of_ne hd] at hk
      exact ⟨k, hk⟩

/-- Clients send batches: a number of additions and then a reading. Every reading is that number
exactly if the batches come whole, each after the other, in whatever order of the clients. -/
theorem forall_readings_eq_iff (hus : ∀ u ∈ us, mark u = .adds) (hr : mark r = .reads)
    (h : ∀ c, ∃ n, ofClient c es = (List.replicate n (us ++ [r])).flatten) :
    (∀ p ∈ readings (mark ∘ Prod.snd) 0 es, p.2 = us.length) ↔
      ∃ order : List ι, es = order.flatMap fun c => (us ++ [r]).map (c, ·) := by
  constructor
  · intro hreadings
    induction hlen : es.length using Nat.strong_induction_on generalizing es with
    | _ len ih =>
    by_cases hread : ∃ e ∈ es, mark e.2 = .reads
    · obtain ⟨before, ⟨c, x⟩, behind, rfl, hx, hbefore⟩ := exists_first_reads hread
      have hnoread : ∀ a ∈ before, (mark ∘ Prod.snd) a ≠ .reads := hbefore
      have hfirst : readings (mark ∘ Prod.snd) 0 (before ++ (c, x) :: behind) =
          ((c, x), before.countP fun e => (mark ∘ Prod.snd) e = .adds) :: readings (mark ∘ Prod.snd) 0 behind := by
        rw [readings_append, readings_of_forall_ne_reads hnoread, left_of_forall_ne_reads hnoread, List.nil_append,
          readings, Function.comp_apply, hx, Nat.zero_add]
      rw [hfirst] at hreadings
      have hadds : before.length ≤ us.length := by
        rw [← hreadings _ List.mem_cons_self, List.countP_eq_length.mpr]
        intro e he
        exact decide_eq_true (adds_or_reads_of_batches hus hr h e (List.mem_append_left _ he) |>.resolve_right
          (hbefore e he))
      obtain ⟨hmine, hxr, hrest⟩ := first_batch hus hr h hx hbefore hadds
      obtain ⟨order, rfl⟩ := ih behind.length (by rw [← hlen, List.length_append, List.length_cons]; omega)
        hrest (fun p hp => hreadings p (List.mem_cons_of_mem _ hp)) rfl
      refine ⟨c :: order, ?_⟩
      rw [hmine, hxr, List.flatMap_cons, List.map_append, List.append_assoc]
      rfl
    · refine ⟨[], eq_nil_of_ofClient fun c => ?_⟩
      obtain ⟨n, hn⟩ := h c
      cases n with
      | zero => exact hn
      | succ n =>
        have hmem : r ∈ ofClient c es := by simp [hn, List.replicate_succ]
        exact absurd ⟨(c, r), mem_ofClient.mp hmem, hr⟩ hread
  · intro horder p hp
    obtain ⟨order, rfl⟩ := horder
    rw [readings_flatMap hus hr] at hp
    obtain ⟨c, -, rfl⟩ := List.mem_map.mp hp
    rfl

end Batches

end WorkCode.Tallies
