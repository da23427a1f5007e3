import WorkCode.DecimalInput
import WorkCode.RemoteCalls
import WorkCode.Tallies

/-!
# The call counters of the test services

Two services count the calls they serve, and a call that asks for the number sets it back. One
of them takes batched calls, which it does not answer; the other one is reached through a
secured connection. Both dispatchers are here, with the clients that check the numbers: the
one that sends batches and expects nine calls in each, and the one that asserts the number
of echoes.
-/

namespace WorkCode.CallCounting

open XdrCodec RemoteCalls DecimalInput Tallies

def intMax : ℕ := 2147483647

/-- `count++`. The successor of the largest `int` is undefined. -/
def increment (count : ℕ) : Option ℕ := if count < intMax then some (count + 1) else none

def xdrWrapstring : Codec (List Byte) := xdrString (2 ^ 32 - 1)

/-- `svc_sendreply` over a stream, which has room for any result. -/
def sendreplyStream : Option (List Byte) → Reply := sendreply fun _ => true

structure Call where
  rqProc : BitVec 32
  args : List Byte
  deriving DecidableEq

/-- `test_num_calls_1_svc` of both services. -/
def testNumCalls (count : ℕ) : ℕ × ℕ := (count, 0)

/-- The dispatcher's part in `test_num_calls`: `xdr_void` takes any arguments. -/
def numCalls (count : ℕ) : Option Reply × ℕ :=
  let result := testNumCalls count
  (some (sendreplyStream (xdrInt.encode (BitVec.ofNat 32 result.1))), result.2)

/-- What the client's stub makes of the reply to `test_num_calls`. -/
def told : Option Reply → Option ℤ
  | some (.success result) => (xdrInt.decode result).map (·.1.toInt)
  | _ => none

theorem increment_eq_some_iff {count count' : ℕ} :
    increment count = some count' ↔ count < intMax ∧ count' = count + 1 := by
  rw [increment]
  split
  · next hlt => simp [hlt, eq_comm]
  · next hge => simp [hge]

theorem told_numCalls {count : ℕ} (h : count ≤ intMax) : told (numCalls count).1 = some (count : ℤ) := by
  have hlt : count < 2 ^ 31 := Nat.lt_succ_of_le h
  have hback := @Lawful.decode_encode _ _ _ lawful_xdrInt (BitVec.ofNat 32 count) _ trivial rfl []
  rw [List.append_nil] at hback
  have htold : told (numCalls count).1 = some (BitVec.ofNat 32 count).toInt :=
    congrArg (Option.map fun r : BitVec 32 × List Byte => r.1.toInt) hback
  have hnat : (BitVec.ofNat 32 count).toNat = count := by
    rw [BitVec.toNat_ofNat, Nat.mod_eq_of_lt (by omega)]
  rw [htold, BitVec.toInt_eq_toNat_of_lt (by omega), hnat]

section Serving

variable {μ : Type}

/-- The messages that arrive, one after another; `none` where the service comes to do something
undefined. -/
def serveAll (prog : ℕ → μ → Option (Option Reply × ℕ)) : ℕ → List μ → Option (List (Option Reply) × ℕ)
  | count, [] => some ([], count)
  | count, m :: ms => (prog count m).bind fun r => (serveAll prog r.2 ms).map fun rs => (r.1 :: rs.1, rs.2)

/-- What a dispatcher does to the counter, by the kind of the message. -/
structure Counting (prog : ℕ → μ → Option (Option Reply × ℕ)) (mark : μ → Mark) : Prop where
  adds : ∀ {n m r}, mark m = .adds → prog n m = some r → n < intMax ∧ r.2 = n + 1
  reads : ∀ n m, mark m = .reads → prog n m = some (numCalls n)
  passes : ∀ {n m r}, mark m = .passes → prog n m = some r → r.2 = n

variable {prog : ℕ → μ → Option (Option Reply × ℕ)} {mark : μ → Mark} {ms : List μ} {n last : ℕ}
  {rs : List (Option Reply)}

theorem Counting.comap {ν : Type} (h : Counting prog mark) (f : ν → μ) :
    Counting (fun n e => prog n (f e)) (mark ∘ f) :=
  ⟨fun hmark hr => h.adds hmark hr, fun n e hmark => h.reads n (f e) hmark, fun hmark hr => h.passes hmark hr⟩

/-- A service that does nothing undefined below the largest `int` goes on as long as there is room
for the calls it counts. -/
theorem Counting.exists_serveAll (h : Counting prog mark) (hdef : ∀ n m, n < intMax → (prog n m).isSome)
    (hroom : n + ms.countP (mark · = .adds) < intMax) : ∃ rs last, serveAll prog n ms = some (rs, last) := by
  induction ms generalizing n with
  | nil => exact ⟨[], n, rfl⟩
  | cons m ms ih =>
    rw [List.countP_cons] at hroom
    obtain ⟨r, hr⟩ := Option.isSome_iff_exists.mp (hdef n m (by omega))
    have hnext : r.2 + ms.countP (mark · = .adds) < intMax := by
      cases hmark : mark m with
      | adds =>
        rw [(h.adds hmark hr).2]
        rw [hmark, if_pos (by decide)] at hroom
        omega
      | reads =>
        have hnum := h.reads n m hmark
        rw [hr] at hnum
        cases hnum
        rw [numCalls, testNumCalls]
        omega
      | passes =>
        rw [h.passes hmark hr]
        omega
    obtain ⟨rs, last, hrest⟩ := ih hnext
    refine ⟨r.1 :: rs, last, ?_⟩
    rw [serveAll, hr, Option.bind_some, hrest]
    rfl

theorem serveAll_append {ms' : List μ} {mid : ℕ} {rs' : List (Option Reply)}
    (h : serveAll prog n ms = some (rs, mid)) (h' : serveAll prog mid ms' = some (rs', last)) :
    serveAll prog n (ms ++ ms') = some (rs ++ rs', last) := by
  induction ms generalizing n rs with
  | nil =>
    cases h
    exact h'
  | cons m ms ih =>
    obtain ⟨r, hr, hrest⟩ := Option.bind_eq_some_iff.mp h
    obtain ⟨⟨rest, last'⟩, hrs, heq⟩ := Option.map_eq_some_iff.mp hrest
    cases heq
    rw [List.cons_append, serveAll, hr, Option.bind_some, ih hrs]
    rfl

/-- The counter after any messages, and the replies to those that ask for it. -/
theorem Counting.serveAll_eq (h : Counting prog mark) (hserve : serveAll prog n ms = some (rs, last)) :
    last = left mark n ms ∧ (ms.zip rs).filter (mark ·.1 = .reads) =
      (readings mark n ms).map fun p => (p.1, (numCalls p.2).1) := by
  induction ms generalizing n rs with
  | nil =>
    cases hserve
    exact ⟨rfl, rfl⟩
  | cons m ms ih =>
    obtain ⟨r, hr, hrest⟩ := Option.bind_eq_some_iff.mp hserve
    obtain ⟨⟨rs', last'⟩, hrs, heq⟩ := Option.map_eq_some_iff.mp hrest
    cases heq
    obtain ⟨hlast, hreplies⟩ := ih hrs
    rw [left, readings, List.zip_cons_cons]
    cases hmark : mark m with
    | adds =>
      rw [← (h.adds hmark hr).2, List.filter_cons_of_neg (by simp [hmark])]
      exact ⟨hlast, hreplies⟩
    | reads =>
      have hnum := h.reads n m hmark
      rw [hr] at hnum
      cases hnum
      rw [List.filter_cons_of_pos (by simp [hmark]), List.map_cons, hreplies]
      exact ⟨hlast, rfl⟩
    | passes =>
      have hn := h.passes hmark hr
      rw [List.filter_cons_of_neg (by simp [hmark]), hreplies, hlast, hn]
      exact ⟨rfl, rfl⟩

theorem Counting.left_le (h : Counting prog mark) (hn : n ≤ intMax) (hserve : serveAll prog n ms = some (rs, last)) :
    last ≤ intMax ∧ ∀ p ∈ readings mark n ms, p.2 ≤ intMax := by
  induction ms generalizing n rs with
  | nil =>
    cases hserve
    exact ⟨hn, by simp [readings]⟩
  | cons m ms ih =>
    obtain ⟨r, hr, hrest⟩ := Option.bind_eq_some_iff.mp hserve
    obtain ⟨⟨rs', last'⟩, hrs, heq⟩ := Option.map_eq_some_iff.mp hrest
    cases heq
    rw [readings]
    cases hmark : mark m with
    | adds =>
      obtain ⟨hlt, hsucc⟩ := h.adds hmark hr
      have htail := ih (by omega) hrs
      rwa [hsucc] at htail
    | reads =>
      have hnum := h.reads n m hmark
      rw [hr] at hnum
      cases hnum
      obtain ⟨hle, hall⟩ := ih (Nat.zero_le _) hrs
      exact ⟨hle, List.forall_mem_cons.mpr ⟨hn, hall⟩⟩
    | passes =>
      have hsame := h.passes hmark hr
      have htail := ih (by omega) hrs
      rwa [hsame] at htail

/-- The numbers that are sent to those who ask. -/
def answers (mark : μ → Mark) (ms : List μ) (rs : List (Option Reply)) : List ℤ :=
  ((ms.zip rs).filter (mark ·.1 = .reads)).filterMap (told ·.2)

theorem Counting.answers_eq (h : Counting prog mark) (hn : n ≤ intMax) (hserve : serveAll prog n ms = some (rs, last)) :
    answers mark ms rs = (readings mark n ms).map fun p => (p.2 : ℤ) := by
  have hle := (h.left_le hn hserve).2
  rw [answers, (h.serveAll_eq hserve).2, List.filterMap_map, ← List.filterMap_eq_map]
  apply List.filterMap_congr
  intro p hp
  exact told_numCalls (hle p hp)

/-- No call is lost or counted twice, whatever arrives: the numbers that are sent and what is left
in the counter make up the calls that were counted. -/
theorem Counting.sum_answers (h : Counting prog mark) (hn : n ≤ intMax)
    (hserve : serveAll prog n ms = some (rs, last)) :
    (answers mark ms rs).sum + last = n + ms.countP (mark · = .adds) := by
  have hsum := sum_readings mark n ms
  rw [h.answers_eq hn hserve, (h.serveAll_eq hserve).1, ← Nat.cast_add, ← hsum, Nat.cast_add, Nat.cast_list_sum,
    List.map_map]
  rfl

end Serving

namespace Batch

def testBatch1 (count : ℕ) : Option ℕ := increment count

def testBatch2 (count : ℕ) : Option ℕ := increment count

def testBatch3 (count : ℕ) : Option ℕ := increment count

/-- The dispatcher around a handler that returns `NULL`: no reply is sent then. -/
def serve (handler : ℕ → Option ℕ) (count : ℕ) (args : List Byte) : Option (Option Reply × ℕ) :=
  match xdrWrapstring.decode args with
  | none => some (some .garbageArgs, count)
  | some _ => (handler count).map fun count => (none, count)

/-- `testprog_1` of `test_batch_svc.c`. -/
def testprog1 (count : ℕ) (m : Call) : Option (Option Reply × ℕ) :=
  if m.rqProc = 0 then some (some (sendreplyStream (some [])), count)
  else if m.rqProc = 1 then serve testBatch1 count m.args
  else if m.rqProc = 2 then serve testBatch2 count m.args
  else if m.rqProc = 3 then serve testBatch3 count m.args
  else if m.rqProc = 4 then some (numCalls count)
  else some (some .procUnavail, count)

/-- `clnt_call` of a batched procedure: nothing is sent of an argument that is not encoded. -/
def batchedCall (proc : BitVec 32) (argp : List Byte) : List Call :=
  match xdrWrapstring.encode argp with
  | none => []
  | some args => [⟨proc, args⟩]

def testBatch1Asynch (argp : List Byte) : List Call := batchedCall 1 argp

def testBatch2Asynch (argp : List Byte) : List Call := batchedCall 2 argp

def testBatch3Asynch (argp : List Byte) : List Call := batchedCall 3 argp

def sBatch1 : List Byte := [0x62, 0x61, 0x74, 0x63, 0x68, 0x31]

def sBatch2 : List Byte := [0x62, 0x61, 0x74, 0x63, 0x68, 0x32]

def sBatch3 : List Byte := [0x62, 0x61, 0x74, 0x63, 0x68, 0x33]

def batched : List Call :=
  testBatch1Asynch sBatch1 ++ testBatch2Asynch sBatch2 ++ testBatch3Asynch sBatch3 ++
  testBatch1Asynch sBatch1 ++ testBatch2Asynch sBatch2 ++ testBatch3Asynch sBatch3 ++
  testBatch1Asynch sBatch1 ++ testBatch2Asynch sBatch2 ++ testBatch3Asynch sBatch3

def askNumCalls : Call := ⟨4, []⟩

/-- The calls of `main` of `test_batch_clnt_cli.c`, in the order in which the connection
carries them. -/
def mainCalls : List Call := batched ++ [askNumCalls] ++ (batched ++ [askNumCalls])

/-- The numbers that a client prints, given all calls with their clients and the replies. -/
def printed {ι : Type} [DecidableEq ι] (es : List (ι × Call)) (replies : List (Option Reply)) (c : ι) : List ℤ :=
  (es.zip replies).filterMap fun p => if p.1.1 = c ∧ p.1.2.rqProc = 4 then told p.2 else none

def mark (m : Call) : Mark :=
  if m.rqProc = 1 ∨ m.rqProc = 2 ∨ m.rqProc = 3 then
    if (xdrWrapstring.decode m.args).isSome then .adds else .passes
  else if m.rqProc = 4 then .reads
  else .passes

theorem serve_eq_some {handler : ℕ → Option ℕ} {count : ℕ} {args : List Byte} {r : Option Reply × ℕ}
    (h : serve handler count args = some r) :
    ((xdrWrapstring.decode args).isSome = false ∧ r.2 = count) ∨
      ((xdrWrapstring.decode args).isSome = true ∧ handler count = some r.2) := by
  rw [serve] at h
  split at h
  · next hnone =>
    cases h
    exact .inl ⟨by rw [hnone]; rfl, rfl⟩
  · next s hsome =>
    obtain ⟨count', hcount, heq⟩ := Option.map_eq_some_iff.mp h
    cases heq
    exact .inr ⟨by rw [hsome]; rfl, hcount⟩

theorem testprog1_batched {m : Call} (h : m.rqProc = 1 ∨ m.rqProc = 2 ∨ m.rqProc = 3) (count : ℕ) :
    testprog1 count m = serve increment count m.args := by
  rcases h with h | h | h
  · rw [testprog1, if_neg (by rw [h]; decide), if_pos h]
    rfl
  · rw [testprog1, if_neg (by rw [h]; decide), if_neg (by rw [h]; decide), if_pos h]
    rfl
  · rw [testprog1, if_neg (by rw [h]; decide), if_neg (by rw [h]; decide), if_neg (by rw [h]; decide), if_pos h]
    rfl

theorem counting_testprog1 : Counting testprog1 mark := by
  constructor
  · intro n m r hmark hr
    by_cases hproc : m.rqProc = 1 ∨ m.rqProc = 2 ∨ m.rqProc = 3
    · rw [testprog1_batched hproc] at hr
      rw [mark, if_pos hproc] at hmark
      rcases serve_eq_some hr with ⟨hdecode, -⟩ | ⟨-, hcount⟩
      · rw [hdecode] at hmark
        cases hmark
      · exact increment_eq_some_iff.mp hcount
    · rw [mark, if_neg hproc] at hmark
      split at hmark <;> cases hmark
  · intro n m hmark
    by_cases hproc : m.rqProc = 1 ∨ m.rqProc = 2 ∨ m.rqProc = 3
    · rw [mark, if_pos hproc] at hmark
      split at hmark <;> cases hmark
    · rw [mark, if_neg hproc] at hmark
      split at hmark
      · next hask => simp [testprog1, hask]
      · cases hmark
  · intro n m r hmark hr
    by_cases hproc : m.rqProc = 1 ∨ m.rqProc = 2 ∨ m.rqProc = 3
    · rw [testprog1_batched hproc] at hr
      rw [mark, if_pos hproc] at hmark
      rcases serve_eq_some hr with ⟨-, hcount⟩ | ⟨hdecode, -⟩
      · exact hcount
      · rw [hdecode] at hmark
        cases hmark
    · rw [mark, if_neg hproc] at hmark
      split at hmark
      · cases hmark
      · next hask =>
        rw [testprog1, if_neg (fun h => hproc (.inl h)), if_neg (fun h => hproc (.inr (.inl h))),
          if_neg (fun h => hproc (.inr (.inr h))), if_neg hask] at hr
        split at hr <;> cases hr <;> rfl

example : (batched.map mark) = List.replicate 9 .adds := by decide


theorem isSome_testprog1 (n : ℕ) (m : Call) (hn : n < intMax) : (testprog1 n m).isSome := by
  by_cases hproc : m.rqProc = 1 ∨ m.rqProc = 2 ∨ m.rqProc = 3
  · rw [testprog1_batched hproc, serve]
    split
    · rfl
    · rw [increment, if_pos hn]
      rfl
  · rw [testprog1, if_neg (fun h => hproc (.inl h)), if_neg (fun h => hproc (.inr (.inl h))),
      if_neg (fun h => hproc (.inr (.inr h)))]
    split
    · rfl
    · split <;> rfl

theorem mark_eq_reads_iff (m : Call) : mark m = .reads ↔ m.rqProc = 4 := by
  by_cases hproc : m.rqProc = 1 ∨ m.rqProc = 2 ∨ m.rqProc = 3
  · have hne : m.rqProc ≠ 4 := by
      rcases hproc with h | h | h <;> rw [h] <;> decide
    rw [mark, if_pos hproc]
    constructor
    · intro h
      split at h <;> cases h
    · intro h
      exact absurd h hne
  · rw [mark, if_neg hproc]
    constructor
    · intro h
      by_contra hask
      rw [if_neg hask] at h
      cases h
    · intro h
      rw [if_pos h]

section Clients

variable {ι : Type} [DecidableEq ι] {es : List (ι × Call)} {rs : List (Option Reply)} {n last : ℕ}

theorem printed_eq (hn : n ≤ intMax) (hserve : serveAll (fun n (e : ι × Call) => testprog1 n e.2) n es = some (rs, last))
    (c : ι) : printed es rs c = (toldTo mark n es c).map fun k : ℕ => (k : ℤ) := by
  have hcount : Counting (fun n (e : ι × Call) => testprog1 n e.2) (mark ∘ Prod.snd) := counting_testprog1.comap _
  have hle := (hcount.left_le hn hserve).2
  have hprinted : printed es rs c = ((es.zip rs).filter fun p => (mark ∘ Prod.snd) p.1 = .reads).filterMap
      fun p => if p.1.1 = c then told p.2 else none := by
    rw [List.filterMap_filter, printed]
    apply List.filterMap_congr
    intro p hp
    by_cases hc : p.1.1 = c
    · simp [hc, mark_eq_reads_iff]
    · simp [hc]
  rw [hprinted, (hcount.serveAll_eq hserve).2, List.filterMap_map, toldTo, ofClient_eq_filterMap, List.filterMap_map,
    List.map_filterMap]
  apply List.filterMap_congr
  intro p hp
  by_cases hc : p.1.1 = c
  · simp [hc, told_numCalls (hle p hp)]
  · simp [hc]

theorem ofClient_batches (h : ∀ c, ofClient c es = mainCalls) (c : ι) :
    ∃ n, ofClient c es = (List.replicate n (batched ++ [askNumCalls])).flatten := by
  refine ⟨2, ?_⟩
  rw [h]
  rfl

/-- Any number of `test_batch_clnt` run at once against a fresh service. Between them they print each
call they made once, every one prints two numbers, and the service is left as it was; but the
numbers are the nine that each expects exactly if the calls of no two of them overlap within a
batch. -/
theorem main_prints [Fintype ι] (h : ∀ c, ofClient c es = mainCalls) (hmax : 18 * Fintype.card ι < intMax) :
    ∃ rs, serveAll (fun n (e : ι × Call) => testprog1 n e.2) 0 es = some (rs, 0) ∧
      (∀ c, (printed es rs c).length = 2) ∧ ∑ c, (printed es rs c).sum = 18 * Fintype.card ι ∧
      ((∀ c, printed es rs c = [9, 9]) ↔
        ∃ order : List ι, es = order.flatMap fun c => (batched ++ [askNumCalls]).map (c, ·)) := by
  have hcount : Counting (fun n (e : ι × Call) => testprog1 n e.2) (mark ∘ Prod.snd) := counting_testprog1.comap _
  have hadds : ∀ c, (ofClient c es).countP (mark · = .adds) = 18 := by
    intro c
    rw [h]
    decide
  have htwo : ∀ c, (toldTo mark 0 es c).length = 2 := by
    intro c
    rw [length_toldTo, h]
    decide
  have htotal : es.countP (fun e => (mark ∘ Prod.snd) e = .adds) = 18 * Fintype.card ι := by
    have hsum := sum_countP_ofClient (fun m => decide (mark m = .adds)) es
    rw [Finset.sum_congr rfl fun c _ => hadds c, Finset.sum_const, Finset.card_univ, nsmul_eq_mul, Nat.mul_comm] at hsum
    exact hsum.symm
  obtain ⟨rs, last, hserve⟩ := @Counting.exists_serveAll _ _ _ es 0 hcount
    (fun n e hn => isSome_testprog1 n e.2 hn) (by omega)
  have hleft := left_of_batches (by decide : mark askNumCalls = .reads) (ofClient_batches h)
  obtain ⟨rfl, -⟩ := hcount.serveAll_eq hserve
  rw [hleft] at hserve
  have hprinted := printed_eq (Nat.zero_le intMax) hserve
  refine ⟨rs, hserve, ?_, ?_, ?_⟩
  · intro c
    rw [hprinted, List.length_map, htwo]
  · have hsum := sum_toldTo mark 0 es
    rw [hleft, Nat.add_zero, Nat.zero_add, Finset.sum_congr rfl fun c _ => hadds c, Finset.sum_const,
      Finset.card_univ, nsmul_eq_mul, Nat.mul_comm] at hsum
    have hcast : ∀ c, (printed es rs c).sum = (((toldTo mark 0 es c).sum : ℕ) : ℤ) := by
      intro c
      rw [hprinted, Nat.cast_list_sum]
    rw [Finset.sum_congr rfl fun c _ => hcast c, ← Nat.cast_sum, hsum]
    rfl
  · have hnine : ∀ c, printed es rs c = [9, 9] ↔ ∀ m ∈ toldTo mark 0 es c, m = batched.length := by
      intro c
      rw [hprinted]
      obtain ⟨x, y, hxy⟩ := List.length_eq_two.mp (htwo c)
      rw [hxy]
      simp [(by decide : batched.length = 9)]
      omega
    simp only [hnine]
    rw [forall_toldTo_iff]
    exact forall_readings_eq_iff (by decide) (by decide) (ofClient_batches h)

def twoClients : List (Fin 2 × Call) := [0, 1].flatMap fun c => mainCalls.map (c, ·)

theorem main_prints_two_clients :
    ∃ rs, serveAll (fun n (e : Fin 2 × Call) => testprog1 n e.2) 0 twoClients = some (rs, 0) ∧
      (∀ c, (printed twoClients rs c).length = 2) ∧ ∑ c, (printed twoClients rs c).sum = 18 * Fintype.card (Fin 2) ∧
      ((∀ c, printed twoClients rs c = [9, 9]) ↔
        ∃ order : List (Fin 2), twoClients = order.flatMap fun c => (batched ++ [askNumCalls]).map (c, ·)) :=
  main_prints (by decide) (by decide)

end Clients

end Batch

namespace Gnutls

/-- What a handler finds around it: whether `malloc` gives it memory, and the text of `ctime`. -/
structure System where
  memory : Bool
  ctime : Option (List Byte)

def hello : List Byte := [0x48, 0x65, 0x6c, 0x6c, 0x6f, 0x20]

/-- `test_hello_1_svc`. The size of the copy is computed as an `int`, and the memory for it is
written to without a look whether there is any. -/
def testHello (count : ℕ) (str : List Byte) (sys : System) : Option (List Byte × ℕ) :=
  if 6 + str.length + 1 ≤ intMax ∧ sys.memory = true then (increment count).map fun count => (hello ++ str, count)
  else none

/-- `test_ctime_1_svc`; the pointer that `ctime` gives may be `NULL`. -/
def testCtime (count : ℕ) (sys : System) : Option (Option (List Byte) × ℕ) :=
  (increment count).map fun count => (sys.ctime, count)

def testEcho (count : ℕ) : Option ℕ := increment count

/-- `testprog_1` of `test_gnutls_svc.c`. -/
def testprog1 (count : ℕ) (m : Call × System) : Option (Option Reply × ℕ) :=
  if m.1.rqProc = 0 then some (some (sendreplyStream (some [])), count)
  else if m.1.rqProc = 1 then
    match xdrWrapstring.decode m.1.args with
    | none => some (some .garbageArgs, count)
    | some (str, _) =>
      (testHello count str m.2).map fun r => (some (sendreplyStream (xdrWrapstring.encode r.1)), r.2)
  else if m.1.rqProc = 2 then
    (testCtime count m.2).map fun r => (some (sendreplyStream (r.1.bind xdrWrapstring.encode)), r.2)
  else if m.1.rqProc = 3 then (testEcho count).map fun count => (some (sendreplyStream (some [])), count)
  else if m.1.rqProc = 4 then some (numCalls count)
  else some (some .procUnavail, count)

def mark (m : Call × System) : Mark :=
  if m.1.rqProc = 1 then if (xdrWrapstring.decode m.1.args).isSome then .adds else .passes
  else if m.1.rqProc = 2 ∨ m.1.rqProc = 3 then .adds
  else if m.1.rqProc = 4 then .reads
  else .passes

theorem mark_eq_reads_iff (m : Call × System) : mark m = .reads ↔ m.1.rqProc = 4 := by
  constructor
  · intro h
    rw [mark] at h
    split at h
    · split at h <;> cases h
    · split at h
      · cases h
      · split at h
        · next hask => exact hask
        · cases h
  · intro h
    rw [mark, if_neg (by rw [h]; decide), if_neg (by rw [h]; decide), if_pos h]

theorem counting_testprog1 : Counting testprog1 mark := by
  constructor
  · intro n m r hmark hr
    rw [mark] at hmark
    rw [testprog1] at hr
    split at hmark
    · next hello =>
      rw [if_neg (by rw [hello]; decide), if_pos hello] at hr
      cases hdecode : xdrWrapstring.decode m.1.args with
      | none =>
        rw [hdecode] at hmark
        cases hmark
      | some s =>
        rw [hdecode] at hr
        obtain ⟨t, ht, rfl⟩ := Option.map_eq_some_iff.mp hr
        rw [testHello] at ht
        split at ht
        · obtain ⟨count, hcount, rfl⟩ := Option.map_eq_some_iff.mp ht
          exact increment_eq_some_iff.mp hcount
        · cases ht
    · next hello =>
      split at hmark
      · next hcounted =>
        rcases hcounted with hctime | hecho
        · rw [if_neg (by rw [hctime]; decide), if_neg hello, if_pos hctime] at hr
          obtain ⟨t, ht, rfl⟩ := Option.map_eq_some_iff.mp hr
          obtain ⟨count, hcount, rfl⟩ := Option.map_eq_some_iff.mp ht
          exact increment_eq_some_iff.mp hcount
        · rw [if_neg (by rw [hecho]; decide), if_neg hello, if_neg (by rw [hecho]; decide), if_pos hecho] at hr
          obtain ⟨count, hcount, rfl⟩ := Option.map_eq_some_iff.mp hr
          exact increment_eq_some_iff.mp hcount
      · split at hmark <;> cases hmark
  · intro n m hmark
    have hask : m.1.rqProc = 4 := (mark_eq_reads_iff m).mp hmark
    rw [testprog1, if_neg (by rw [hask]; decide), if_neg (by rw [hask]; decide), if_neg (by rw [hask]; decide),
      if_neg (by rw [hask]; decide), if_pos hask]
  · intro n m r hmark hr
    rw [mark] at hmark
    rw [testprog1] at hr
    split at hmark
    · next hello =>
      rw [if_neg (by rw [hello]; decide), if_pos hello] at hr
      cases hdecode : xdrWrapstring.decode m.1.args with
      | none =>
        rw [hdecode] at hr
        cases hr
        rfl
      | some s =>
        rw [hdecode] at hmark
        cases hmark
    · next hello =>
      split at hmark
      · cases hmark
      · next hcounted =>
        split at hmark
        · cases hmark
        · next hask =>
          rw [if_neg hello, if_neg (fun h => hcounted (.inl h)), if_neg (fun h => hcounted (.inr h)), if_neg hask] at hr
          split at hr <;> cases hr <;> rfl

/-- No call of any client is lost or counted twice: whatever messages reach the service, the
numbers it sends to those who ask and the one it is left with make up the number it had and the
calls it counted. -/
theorem numCalls_conserves {ms : List (Call × System)} {n last : ℕ} {rs : List (Option Reply)} (hn : n ≤ intMax)
    (hserve : serveAll testprog1 n ms = some (rs, last)) :
    (answers mark ms rs).sum + last = n + ms.countP (mark · = .adds) :=
  counting_testprog1.sum_answers hn hserve

theorem numCalls_conserves_three_calls :
    (answers mark [(⟨3, []⟩, ⟨true, none⟩), (⟨2, []⟩, ⟨true, none⟩), (⟨4, []⟩, ⟨true, none⟩)]
      [some (.success []), some .systemErr, some (.success [0, 0, 0, 2])]).sum + (0 : ℕ) = ((0 : ℕ) : ℤ) + (2 : ℕ) :=
  numCalls_conserves (Nat.zero_le _) rfl

section Performance

/-- A call of the client: the messages of others that the service takes before it, what becomes
of it, and what its handler finds. -/
structure Exchange where
  others : List (Call × System)
  net : Delivery
  sys : System

/-- `clnt_call`: the reply, where there is one in time, and the counter of the service. -/
def clntCall (count : ℕ) (m : Call) (x : Exchange) : Option (Option Reply × ℕ) :=
  (serveAll testprog1 count x.others).bind fun r =>
    if x.net = .lost then some (none, r.2)
    else (testprog1 r.2 (m, x.sys)).map fun s => (if x.net = .answered then s.1 else none, s.2)

def askEcho : Call := ⟨3, []⟩

def askNumCalls : Call := ⟨4, []⟩

/-- `for (i = 0; i < count; ++i)`, from `i` on. The results are not looked at. -/
def echoes (echo : ℕ → Exchange) : ℕ → ℕ → ℕ → Option ℕ
  | _, 0, server => some server
  | i, n + 1, server => (clntCall server askEcho (echo i)).bind fun r => echoes echo (i + 1) n r.2

inductive End
  | usage
  | notANumber
  | noConnection
  | noHandshake
  | nullPointer
  | assertionFailed
  | success
  deriving DecidableEq, Repr

/-- `main` of `test_gnutls_clnt_perf.c` against a service whose counter is `server`. What `%d`
makes of a number that is no `int` is `tooLarge`. -/
def main (argv : List (List Char)) (tooLarge : ℤ → ℤ) (connected handshake : Bool) (reset : Exchange)
    (echo : ℕ → Exchange) (check : Exchange) (server : ℕ) : Option (End × ℕ) :=
  match argv with
  | [_, text] =>
    match scanInt text with
    | none => some (.notANumber, server)
    | some k =>
      let count := if -2 ^ 31 ≤ k ∧ k ≤ intMax then k else tooLarge k
      if connected = false then some (.noConnection, server)
      else if handshake = false then some (.noHandshake, server)
      else
        (clntCall server askNumCalls reset).bind fun r =>
          (echoes echo 0 count.toNat r.2).bind fun server =>
            (clntCall server askNumCalls check).map fun r =>
              match told r.1 with
              | none => (.nullPointer, r.2)
              | some n => (if n = count then .success else .assertionFailed, r.2)
  | _ => some (.usage, server)

def trace (m : Call) (x : Exchange) : List (Call × System) :=
  x.others ++ if x.net = .lost then [] else [(m, x.sys)]

def lostEchoes (echo : ℕ → Exchange) (n : ℕ) : ℕ := (List.range n).countP fun i => (echo i).net = .lost

def otherCalls (echo : ℕ → Exchange) (n : ℕ) (check : Exchange) : ℕ :=
  ((List.range n).map fun i => (echo i).others.countP (mark · = .adds)).sum + check.others.countP (mark · = .adds)

theorem serveAll_of_clntCall {server : ℕ} {m : Call} {x : Exchange} {r : Option Reply × ℕ}
    (h : clntCall server m x = some r) : ∃ rs, serveAll testprog1 server (trace m x) = some (rs, r.2) := by
  obtain ⟨⟨rs, mid⟩, hothers, hcall⟩ := Option.bind_eq_some_iff.mp h
  split at hcall
  · next hlost =>
    cases hcall
    rw [trace, if_pos hlost, List.append_nil]
    exact ⟨rs, hothers⟩
  · next hlost =>
    obtain ⟨s, hs, rfl⟩ := Option.map_eq_some_iff.mp hcall
    have hone : serveAll testprog1 mid [(m, x.sys)] = some ([s.1], s.2) := by
      rw [serveAll, hs]
      rfl
    rw [trace, if_neg hlost]
    exact ⟨_, serveAll_append hothers hone⟩

theorem serveAll_of_echoes {echo : ℕ → Exchange} {i n server last : ℕ} (h : echoes echo i n server = some last) :
    ∃ rs, serveAll testprog1 server ((List.range' i n).flatMap fun i => trace askEcho (echo i)) = some (rs, last) := by
  induction n generalizing i server with
  | zero =>
    cases h
    exact ⟨[], rfl⟩
  | succ n ih =>
    obtain ⟨r, hr, hrest⟩ := Option.bind_eq_some_iff.mp h
    obtain ⟨rs, hhead⟩ := serveAll_of_clntCall hr
    obtain ⟨rs', htail⟩ := ih hrest
    rw [List.range'_succ, List.flatMap_cons]
    exact ⟨_, serveAll_append hhead htail⟩

theorem clntCall_reset {server : ℕ} {x : Exchange} {r : Option Reply × ℕ} (hnet : x.net ≠ .lost)
    (h : clntCall server askNumCalls x = some r) : r.2 = 0 := by
  obtain ⟨rs, hserve⟩ := serveAll_of_clntCall h
  have hask : mark (askNumCalls, x.sys) = .reads := (mark_eq_reads_iff _).mpr rfl
  rw [(counting_testprog1.serveAll_eq hserve).1, trace, if_neg hnet, left_append, left, hask]
  rfl

theorem told_askNumCalls {server : ℕ} {x : Exchange} {r : Option Reply × ℕ} (hserver : server ≤ intMax)
    (h : clntCall server askNumCalls x = some r) :
    told r.1 = if x.net = .answered then some (left mark server x.others : ℤ) else none := by
  obtain ⟨⟨rs, mid⟩, hothers, hcall⟩ := Option.bind_eq_some_iff.mp h
  have hmid := (counting_testprog1.serveAll_eq hothers).1
  have hle := (counting_testprog1.left_le hserver hothers).1
  have hasked : testprog1 mid (askNumCalls, x.sys) = some (numCalls mid) :=
    counting_testprog1.reads mid (askNumCalls, x.sys) ((mark_eq_reads_iff _).mpr rfl)
  rw [← hmid]
  split at hcall
  · next hlost =>
    cases hcall
    rw [hlost]
    rfl
  · next hlost =>
    obtain ⟨s, hs, rfl⟩ := Option.map_eq_some_iff.mp hcall
    rw [hasked] at hs
    cases hs
    split
    · exact told_numCalls hle
    · rfl

theorem countP_trace_askEcho (x : Exchange) :
    (trace askEcho x).countP (mark · = .adds) + (if x.net = .lost then 1 else 0) =
      x.others.countP (mark · = .adds) + 1 := by
  rw [trace, List.countP_append]
  split
  · rfl
  · have hadds : mark (askEcho, x.sys) = .adds := rfl
    rw [List.countP_singleton, hadds]
    rfl

theorem countP_echoes (echo : ℕ → Exchange) (n : ℕ) :
    ((List.range n).flatMap fun i => trace askEcho (echo i)).countP (mark · = .adds) + lostEchoes echo n =
      ((List.range n).map fun i => (echo i).others.countP (mark · = .adds)).sum + n := by
  induction n with
  | zero => rfl
  | succ n ih =>
    have hone := countP_trace_askEcho (echo n)
    have hlast : lostEchoes echo (n + 1) = lostEchoes echo n + if (echo n).net = .lost then 1 else 0 := by
      rw [lostEchoes, List.range_succ, List.countP_append, List.countP_singleton]
      simp [lostEchoes]
    rw [hlast, List.range_succ, List.flatMap_append, List.countP_append, List.flatMap_singleton, List.map_append,
      List.sum_append, List.map_singleton, List.sum_singleton]
    omega

theorem left_check {echo : ℕ → Exchange} {check : Exchange} {n : ℕ}
    (hothers : ∀ i, ∀ m ∈ (echo i).others, mark m ≠ .reads) (hcheck : ∀ m ∈ check.others, mark m ≠ .reads) :
    left mark 0 (((List.range n).flatMap fun i => trace askEcho (echo i)) ++ check.others) + lostEchoes echo n =
      n + otherCalls echo n check := by
  have hnone : ∀ m ∈ ((List.range n).flatMap fun i => trace askEcho (echo i)) ++ check.others, mark m ≠ .reads := by
    intro m hm
    rcases List.mem_append.mp hm with hm | hm
    · obtain ⟨i, -, hm⟩ := List.mem_flatMap.mp hm
      rcases List.mem_append.mp hm with hm | hm
      · exact hothers i m hm
      · split at hm
        · cases hm
        · rw [List.mem_singleton.mp hm]
          exact (by decide : (Mark.adds : Mark) ≠ .reads)
    · exact hcheck m hm
  have hcount := countP_echoes echo n
  rw [left_of_forall_ne_reads hnone, List.countP_append, otherCalls]
  omega

/-- The performance client against a service that others use as well, and do not reset. Its
assertion holds, and it leaves with success, exactly when it comes to its calls, the last one is
answered, the number it was given is not negative, and as many of its own echoes were lost as
calls of others were counted in between. -/
theorem main_succeeds_iff {name text : List Char} {tooLarge : ℤ → ℤ} {connected handshake : Bool}
    {reset check : Exchange} {echo : ℕ → Exchange} {server last : ℕ} {e : End} {k : ℤ} (hnum : StartsWith text k)
    (hk : -2 ^ 31 ≤ k ∧ k ≤ intMax) (hreset : reset.net ≠ .lost)
    (hothers : ∀ i, ∀ m ∈ (echo i).others, mark m ≠ .reads) (hcheck : ∀ m ∈ check.others, mark m ≠ .reads)
    (hrun : main [name, text] tooLarge connected handshake reset echo check server = some (e, last)) :
    e = .success ↔ connected = true ∧ handshake = true ∧ check.net = .answered ∧ 0 ≤ k ∧
      lostEchoes echo k.toNat = otherCalls echo k.toNat check := by
  simp only [main, scanInt_eq_some_iff.mpr hnum, if_pos hk] at hrun
  split at hrun
  · next hconnected =>
    cases hrun
    simp [hconnected]
  · next hconnected =>
    split at hrun
    · next hhandshake =>
      cases hrun
      simp [hhandshake]
    · next hhandshake =>
      obtain ⟨r, hr, hloop⟩ := Option.bind_eq_some_iff.mp hrun
      obtain ⟨counted, hechoes, hlast⟩ := Option.bind_eq_some_iff.mp hloop
      obtain ⟨s, hs, hend⟩ := Option.map_eq_some_iff.mp hlast
      obtain ⟨rs, hserve⟩ := serveAll_of_echoes hechoes
      rw [clntCall_reset hreset hr] at hserve
      have htold := told_askNumCalls (counting_testprog1.left_le (Nat.zero_le _) hserve).1 hs
      have hleft := @left_check echo check k.toNat hothers hcheck
      rw [left_append, List.range_eq_range', ← (counting_testprog1.serveAll_eq hserve).1] at hleft
      rw [htold] at hend
      have hopen : connected = true ∧ handshake = true :=
        ⟨Bool.eq_true_of_not_eq_false hconnected, Bool.eq_true_of_not_eq_false hhandshake⟩
      have hvalue : ((left mark counted check.others : ℕ) : ℤ) = k ↔
          0 ≤ k ∧ lostEchoes echo k.toNat = otherCalls echo k.toNat check := by
        omega
      split at hend
      · next hnone =>
        cases hend
        split at hnone
        · cases hnone
        · next hnet => simp [hnet]
      · next n hsome =>
        split at hsome
        · next hnet =>
          cases hsome
          rw [Prod.mk.injEq] at hend
          obtain ⟨rfl, -⟩ := hend
          rw [← hvalue]
          simp [hopen, hnet]
        · cases hsome

/-- The first echo is lost, and before the second somebody else sends one. -/
def twoEchoes (i : ℕ) : Exchange :=
  if i = 0 then ⟨[], .lost, ⟨true, none⟩⟩ else ⟨[(askEcho, ⟨true, none⟩)], .answered, ⟨true, none⟩⟩

def alone : Exchange := ⟨[], .answered, ⟨true, none⟩⟩

theorem main_succeeds_two_echoes : End.success = .success ↔ true = true ∧ true = true ∧ alone.net = .answered ∧
    (0 : ℤ) ≤ 2 ∧ lostEchoes twoEchoes 2 = otherCalls twoEchoes 2 alone := by
  apply @main_succeeds_iff [] ['2'] id true true alone alone twoEchoes 5 0 .success 2
  · exact scanInt_eq_some_iff.mp (by decide)
  · decide
  · decide
  · intro i m hm
    rw [twoEchoes] at hm
    split at hm
    · cases hm
    · rw [List.mem_singleton.mp hm]
      decide
  · intro m hm
    cases hm
  · rfl

end Performance

end Gnutls

end WorkCode.CallCounting
