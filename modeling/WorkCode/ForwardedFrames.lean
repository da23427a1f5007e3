import WorkCode.FrameForwarder

/-!
# What the two-thread forwarder does with its frames

A thread injects the frames that its capture brings it, in their order, and loses one only
in a failed injection. On one device that is no virtue: an injected frame passes the
capture it came from again, so of the frames that have reached a thread none ever leaves
the program in another way.

The captures are those of `FrameForwarder`: their buffers do not overflow.
-/

namespace WorkCode.ForwardedFrames

open EventRuns FrameForwarder

section Captures

/-- The frames that wait at a thread: the one its callback works on and those behind it. -/
def pending (s : State) (thread : Thread) : List Seen :=
  (s.threads thread).hand.toList ++ (s.threads thread).buffer

/-- What a thread has injected, in order, with the frames as it captured them. -/
def injectedBy (s : State) (thread : Thread) : List Seen :=
  (s.injections.filter (·.1 = thread)).map (·.2)

def failsOf (thread : Thread) : Event → Bool
  | .fail t => t = thread
  | _ => false

def ClosedEmpty (s : State) : Prop :=
  ∀ thread, (s.threads thread).opened = false → pending s thread = []

variable (accepts : String → Frame → Bool)

/-- What the capture of a thread takes of a frame on a device. -/
def taken (s : State) (thread : Thread) (device : String) (x : Seen) : List Seen :=
  if (s.threads thread).opened && sees accepts thread device x.bytes then [x] else []

/-- The frame that an event puts on a device, as a capture would see it. -/
def onDevice (s : State) : Event → Option (String × Seen)
  | .arrive device frame => some (device, ⟨s.arrivals, false, frame⟩)
  | .inject thread frame => match (s.threads thread).hand, packetCapture (ifaces thread) with
    | some x, some (_, device) => some (device, ⟨x.arrival, true, frame⟩)
    | _, _ => none
  | _ => none

def captured (thread : Thread) (s : State) (e : Event) : List Seen :=
  (onDevice s e).elim [] fun x => taken accepts s thread x.1 x.2

def entered (thread : Thread) (s : State) (e : Event) : List Seen :=
  match e with
  | .inject t _ => if t = thread then [] else captured accepts thread s e
  | _ => captured accepts thread s e

variable {accepts} {s s' : State} {thread other : Thread}

@[simp] theorem pending_deliver (device : String) (x : Seen) :
    pending (s.deliver accepts device x) thread = pending s thread ++ taken accepts s thread device x := by
  simp only [pending, State.deliver, taken]
  split <;> simp

@[simp] theorem opened_deliver (device : String) (x : Seen) :
    ((s.deliver accepts device x).threads thread).opened = (s.threads thread).opened := by
  simp only [State.deliver]
  split <;> rfl

@[simp] theorem injectedBy_deliver (device : String) (x : Seen) :
    injectedBy (s.deliver accepts device x) thread = injectedBy s thread := rfl

@[simp] theorem threads_setThread (capture : Capture) :
    (s.setThread thread capture).threads thread = capture := by
  simp [State.setThread]

theorem threads_setThread_of_ne (h : thread ≠ other) (capture : Capture) :
    (s.setThread other capture).threads thread = s.threads thread := by
  simp [State.setThread, Function.update_of_ne h]

theorem pending_setThread_of_ne (h : thread ≠ other) (capture : Capture) :
    pending (s.setThread other capture) thread = pending s thread := by
  simp only [pending, threads_setThread_of_ne h]

end Captures

section Steps

variable {accepts : String → Frame → Bool} {s s' : State} {thread other : Thread} {frame : Frame}

theorem step_start (h : step accepts s (.start thread) = some s') :
    (s.threads thread).opened = false ∧ s' = s.setThread thread ⟨true, [], none⟩ := by
  simp only [step] at h
  split at h
  · cases h
  · next hopened =>
    cases h
    exact ⟨by simpa using hopened, rfl⟩

theorem step_arrive {device : String} (h : step accepts s (.arrive device frame) = some s') :
    s' = { s with arrivals := s.arrivals + 1 }.deliver accepts device ⟨s.arrivals, false, frame⟩ := by
  cases h
  rfl

theorem step_capture (h : step accepts s (.capture thread) = some s') :
    ∃ opened x buffer, s.threads thread = ⟨opened, x :: buffer, none⟩ ∧
      s' = s.setThread thread ⟨opened, buffer, some x⟩ := by
  simp only [step] at h
  split at h
  · next opened x buffer hthread =>
    exact ⟨opened, x, buffer, hthread, (Option.some.inj h).symm⟩
  · cases h

def injectedState (s : State) (thread : Thread) (opened : Bool) (buffer : List Seen) (x : Seen) : State :=
  { s.setThread thread ⟨opened, buffer, none⟩ with injections := s.injections ++ [(thread, x)] }

theorem step_inject (h : step accepts s (.inject thread frame) = some s') :
    ∃ opened buffer x, s.threads thread = ⟨opened, buffer, some x⟩ ∧ Injectable x.bytes frame ∧
      s' = (injectedState s thread opened buffer x).deliver accepts "eth0" ⟨x.arrival, true, frame⟩ := by
  simp only [step, packetCapture_ifaces] at h
  split at h
  · next opened buffer x _ device hthread hdevice =>
    cases hdevice
    split at h
    · next hinject =>
      cases h
      exact ⟨opened, buffer, x, hthread, hinject, rfl⟩
    · cases h
  · cases h

theorem step_fail (h : step accepts s (.fail thread) = some s') :
    ∃ opened buffer x, s.threads thread = ⟨opened, buffer, some x⟩ ∧
      s' = s.setThread thread ⟨opened, buffer, none⟩ := by
  simp only [step] at h
  split at h
  · next opened buffer x hthread =>
    cases h
    exact ⟨opened, buffer, x, hthread, rfl⟩
  · cases h

end Steps

section Threads

variable {accepts : String → Frame → Bool} {s s' : State} {thread other : Thread} {frame : Frame}
  {e : Event}

theorem captured_inject {opened : Bool} {buffer : List Seen} {x : Seen}
    (h : s.threads other = ⟨opened, buffer, some x⟩) :
    captured accepts thread s (.inject other frame) =
      taken accepts s thread "eth0" ⟨x.arrival, true, frame⟩ := by
  simp [captured, onDevice, h, packetCapture_ifaces]

@[simp] theorem captured_start : captured accepts thread s (.start other) = [] := rfl

@[simp] theorem captured_capture : captured accepts thread s (.capture other) = [] := rfl

@[simp] theorem captured_fail : captured accepts thread s (.fail other) = [] := rfl

theorem taken_setThread {opened : Bool} {buffer : List Seen} {hand : Option Seen}
    (h : (s.threads other).opened = opened) (device : String) (x : Seen) :
    taken accepts (s.setThread other ⟨opened, buffer, hand⟩) thread device x =
      taken accepts s thread device x := by
  by_cases hthread : thread = other
  · subst hthread
    simp [taken, h]
  · rw [taken, threads_setThread_of_ne hthread, taken]

theorem pending_inject {opened : Bool} {buffer : List Seen} {x : Seen}
    (h : s.threads other = ⟨opened, buffer, some x⟩) :
    pending ((injectedState s other opened buffer x).deliver accepts "eth0" ⟨x.arrival, true, frame⟩)
      thread = pending (s.setThread other ⟨opened, buffer, none⟩) thread ++
        captured accepts thread s (.inject other frame) := by
  have hopened : (s.threads other).opened = opened := by rw [h]
  rw [captured_inject h, ← taken_setThread hopened]
  exact pending_deliver "eth0" _

theorem injectedBy_injectedState {opened : Bool} {buffer : List Seen} {x : Seen} :
    injectedBy (injectedState s other opened buffer x) thread =
      injectedBy s thread ++ if other = thread then [x] else [] := by
  by_cases h : other = thread
  · simp [injectedBy, injectedState, h]
  · simp [injectedBy, injectedState, h]

/-- All that a step can do to one thread: its capture takes what the step brings, its callback
injects the frame it works on, or the injection of that frame fails. -/
theorem step_cases (hs : ClosedEmpty s) (h : step accepts s e = some s') (thread : Thread) :
    (pending s' thread = pending s thread ++ captured accepts thread s e ∧
      injectedBy s' thread = injectedBy s thread ∧ failsOf thread e = false ∧
      entered accepts thread s e = captured accepts thread s e) ∨
    (∃ frame x rest, e = .inject thread frame ∧ Injectable x.bytes frame ∧
      pending s thread = x :: rest ∧ pending s' thread = rest ++ captured accepts thread s e ∧
      injectedBy s' thread = injectedBy s thread ++ [x] ∧
      captured accepts thread s e = taken accepts s thread "eth0" ⟨x.arrival, true, frame⟩) ∨
    (e = .fail thread ∧ ∃ x, pending s thread = x :: pending s' thread ∧
      injectedBy s' thread = injectedBy s thread) := by
  cases e with
  | start other =>
    obtain ⟨hopened, rfl⟩ := step_start h
    refine .inl ⟨?_, rfl, rfl, rfl⟩
    rw [captured_start, List.append_nil]
    by_cases hthread : thread = other
    · subst hthread
      rw [hs thread hopened]
      simp [pending]
    · exact pending_setThread_of_ne hthread _
  | arrive device frame =>
    cases step_arrive h
    exact .inl ⟨pending_deliver device _, rfl, rfl, rfl⟩
  | capture other =>
    obtain ⟨opened, x, buffer, hother, rfl⟩ := step_capture h
    refine .inl ⟨?_, rfl, rfl, rfl⟩
    rw [captured_capture, List.append_nil]
    by_cases hthread : thread = other
    · subst hthread
      simp [pending, hother]
    · exact pending_setThread_of_ne hthread _
  | inject other frame =>
    obtain ⟨opened, buffer, x, hother, hinject, rfl⟩ := step_inject h
    have htaken : captured accepts thread s (.inject other frame) = _ := captured_inject hother
    by_cases hthread : other = thread
    · subst hthread
      refine .inr (.inl ⟨frame, x, buffer, rfl, hinject, by simp [pending, hother], ?_, ?_, htaken⟩)
      · rw [pending_inject hother]
        simp [pending]
      · rw [injectedBy_deliver, injectedBy_injectedState, if_pos rfl]
    · refine .inl ⟨?_, ?_, rfl, if_neg hthread⟩
      · rw [pending_inject hother, pending_setThread_of_ne (Ne.symm hthread)]
      · rw [injectedBy_deliver, injectedBy_injectedState, if_neg hthread, List.append_nil]
  | fail other =>
    obtain ⟨opened, buffer, x, hother, rfl⟩ := step_fail h
    by_cases hthread : other = thread
    · subst hthread
      exact .inr (.inr ⟨rfl, x, by simp [pending, hother], rfl⟩)
    · refine .inl ⟨?_, rfl, by simp [failsOf, hthread], rfl⟩
      rw [captured_fail, List.append_nil]
      exact pending_setThread_of_ne (Ne.symm hthread) _

end Threads

section Runs

variable {accepts : String → Frame → Bool} {s s' : State} {thread other : Thread} {e : Event}
  {es : List Event}

theorem opened_of_pending (hs : ClosedEmpty s) (h : pending s thread ≠ []) :
    (s.threads thread).opened = true := by
  by_contra hopened
  exact h (hs thread (by simpa using hopened))

theorem captured_of_closed (h : (s.threads thread).opened = false) :
    captured accepts thread s e = [] := by
  rw [captured]
  cases onDevice s e with
  | none => rfl
  | some x => simp [taken, h]

theorem opened_setThread {buffer : List Seen} {hand : Option Seen} {opened : Bool}
    (hopened : (s.threads thread).opened = true) (h : thread = other → opened = true) :
    ((s.setThread other ⟨opened, buffer, hand⟩).threads thread).opened = true := by
  by_cases hthread : thread = other
  · subst hthread
    rw [threads_setThread]
    exact h rfl
  · rw [threads_setThread_of_ne hthread]
    exact hopened

theorem opened_step (h : step accepts s e = some s') (hopened : (s.threads thread).opened = true) :
    (s'.threads thread).opened = true := by
  cases e with
  | start other =>
    obtain ⟨-, rfl⟩ := step_start h
    exact opened_setThread hopened fun _ => rfl
  | arrive device frame =>
    cases step_arrive h
    rw [opened_deliver]
    exact hopened
  | capture other =>
    obtain ⟨opened, x, buffer, hother, rfl⟩ := step_capture h
    apply opened_setThread hopened
    rintro rfl
    simpa [hother] using hopened
  | inject other frame =>
    obtain ⟨opened, buffer, x, hother, -, rfl⟩ := step_inject h
    rw [opened_deliver]
    apply opened_setThread hopened
    rintro rfl
    simpa [hother] using hopened
  | fail other =>
    obtain ⟨opened, buffer, x, hother, rfl⟩ := step_fail h
    apply opened_setThread hopened
    rintro rfl
    simpa [hother] using hopened

theorem ClosedEmpty.step (hs : ClosedEmpty s) (h : step accepts s e = some s') : ClosedEmpty s' := by
  intro thread hopened
  have hclosed : (s.threads thread).opened = false := by
    by_contra hopen
    rw [opened_step h (by simpa using hopen)] at hopened
    cases hopened
  have hpending := hs thread hclosed
  have hcaptured : captured accepts thread s e = [] := captured_of_closed hclosed
  obtain ⟨hpending', -⟩ | ⟨_, x, rest, -, -, hx, -⟩ | ⟨-, x, hx, -⟩ := step_cases hs h thread
  · rw [hpending', hpending, hcaptured, List.append_nil]
  · rw [hpending] at hx
    cases hx
  · rw [hpending] at hx
    cases hx

theorem closedEmpty_init : ClosedEmpty init := fun _ _ => rfl

/-- The frames that the capture of a thread takes in the course of a run. -/
def capturedFrames (accepts : String → Frame → Bool) (thread : Thread) (es : List Event) : List Seen :=
  outputs (step accepts) (captured accepts thread) init es

def enteredFrames (accepts : String → Frame → Bool) (thread : Thread) (es : List Event) : List Seen :=
  outputs (step accepts) (entered accepts thread) init es

theorem handled_step (hs : ClosedEmpty s) (h : step accepts s e = some s') :
    (injectedBy s' thread ++ pending s' thread).Sublist
        (injectedBy s thread ++ pending s thread ++ captured accepts thread s e) ∧
      (injectedBy s' thread ++ pending s' thread).length + (failsOf thread e).toNat =
        (injectedBy s thread ++ pending s thread).length + (captured accepts thread s e).length := by
  obtain ⟨hpending, hinjected, hfails, -⟩ | ⟨_, x, rest, rfl, -, hx, hpending, hinjected, -⟩ |
    ⟨rfl, x, hx, hinjected⟩ := step_cases hs h thread
  · simp [hpending, hinjected, hfails, add_assoc]
  · simp [hx, hpending, hinjected, failsOf]
    omega
  · simp [hx, hinjected, failsOf]
    omega

theorem fail_notMem_iff : Event.fail thread ∉ es ↔ es.countP (failsOf thread) = 0 := by
  rw [List.countP_eq_zero]
  constructor
  · intro h e he
    cases e with
    | fail other =>
      have hne : other ≠ thread := by
        rintro rfl
        exact h he
      simpa [failsOf] using hne
    | _ => simp [failsOf]
  · intro h he
    simpa [failsOf] using h _ he

/-- A thread injects the frames its capture takes, in their order, and what it has not yet
injected waits, exactly if none of its injections fails. -/
theorem forwards_iff {accepts : String → Frame → Bool} {es : List Event} {s : State}
    (h : run (step accepts) init es = some s) (thread : Thread) :
    (injectedBy s thread ++ pending s thread).Sublist (capturedFrames accepts thread es) ∧
      (injectedBy s thread ++ pending s thread = capturedFrames accepts thread es ↔
        .fail thread ∉ es) := by
  have hinv (s : State) (e : Event) (s' : State) (hs : ClosedEmpty s) (ht : step accepts s e = some s') :=
    ClosedEmpty.step hs ht
  have hok : Along (step accepts) (fun _ _ => True) init es :=
    along_of_forall (fun _ _ => trivial) _ _
  have hsub : (injectedBy s thread ++ pending s thread).Sublist (capturedFrames accepts thread es) :=
    run_outputs_sublist hinv (fun s e s' hs ht => (handled_step hs ht).1) closedEmpty_init h
  have hlength : (injectedBy s thread ++ pending s thread).length + es.countP (failsOf thread) =
      0 + (capturedFrames accepts thread es).length :=
    run_outputs_length (fun s e s' hs _ ht => hinv s e s' hs ht)
      (fun s e s' hs _ ht => (handled_step hs ht).2) closedEmpty_init hok h
  refine ⟨hsub, ?_⟩
  rw [fail_notMem_iff]
  constructor
  · intro heq
    rw [heq] at hlength
    omega
  · intro hfails
    apply hsub.eq_of_length
    omega

theorem forwards_iff_feedback : ∃ s, run (step acceptsIpv4) init (feedback .client clientFrame) = some s ∧
    (injectedBy s .client ++ pending s .client).Sublist
        (capturedFrames acceptsIpv4 .client (feedback .client clientFrame)) ∧
      (injectedBy s .client ++ pending s .client =
          capturedFrames acceptsIpv4 .client (feedback .client clientFrame) ↔
        .fail .client ∉ feedback .client clientFrame) := by
  have haccepts : acceptsIpv4 (ifaces .client).filter clientFrame = true := by decide +kernel
  obtain ⟨s, hrun, -⟩ := run_feedback acceptsIpv4 haccepts
  exact ⟨s, hrun, forwards_iff hrun .client⟩

def FitsSnapshot : Event → Prop
  | .arrive _ frame => frame.length ≤ snaplen
  | _ => True

def Held (accepts : String → Frame → Bool) (s : State) : Prop :=
  ∀ thread, ∀ x ∈ pending s thread,
    x.bytes.length ≤ snaplen ∧ accepts (ifaces thread).filter x.bytes = true

theorem mem_captured {x : Seen} (h : x ∈ captured accepts thread s e) :
    ∃ device, onDevice s e = some (device, x) ∧ accepts (ifaces thread).filter x.bytes = true := by
  rw [captured] at h
  cases hdevice : onDevice s e with
  | none => simp [hdevice] at h
  | some y =>
    simp only [hdevice, Option.elim, taken] at h
    split at h
    · next htaken =>
      cases List.mem_singleton.mp h
      rw [Bool.and_eq_true, sees, Bool.and_eq_true] at htaken
      exact ⟨y.1, rfl, htaken.2.2⟩
    · cases h

theorem eq_of_injectable {x y : Frame} (h : Injectable x y) (hx : x.length ≤ snaplen) :
    y = x := by
  have hy : y.length ≤ snaplen := h.1 ▸ hx
  have htake := h.2
  rwa [List.take_of_length_le hx, List.take_of_length_le hy] at htake

theorem length_onDevice {device : String} {x : Seen} (hs : Held accepts s) (he : FitsSnapshot e)
    (h : step accepts s e = some s') (hx : onDevice s e = some (device, x)) :
    x.bytes.length ≤ snaplen := by
  cases e with
  | arrive device frame =>
    cases hx
    exact he
  | inject other frame =>
    obtain ⟨opened, buffer, y, hother, hinject, -⟩ := step_inject h
    simp only [onDevice, hother, packetCapture_ifaces] at hx
    cases hx
    have hy := (hs other y (by simp [pending, hother])).1
    rwa [← hinject.1] at hy
  | _ => cases hx

theorem Held.step (hheld : Held accepts s) (hs : ClosedEmpty s) (he : FitsSnapshot e)
    (h : step accepts s e = some s') : Held accepts s' := by
  intro thread x hx
  have hcaptured : x ∈ captured accepts thread s e →
      x.bytes.length ≤ snaplen ∧ accepts (ifaces thread).filter x.bytes = true := by
    intro hmem
    obtain ⟨device, hdevice, haccepts⟩ := mem_captured hmem
    exact ⟨length_onDevice hheld he h hdevice, haccepts⟩
  obtain ⟨hpending, -⟩ | ⟨_, y, rest, -, -, hy, hpending, -⟩ | ⟨-, y, hy, -⟩ := step_cases hs h thread
  · rw [hpending, List.mem_append] at hx
    exact hx.elim (hheld thread x) hcaptured
  · rw [hpending, List.mem_append] at hx
    have hrest : x ∈ rest → x ∈ pending s thread := by
      intro hmem
      rw [hy]
      exact List.mem_cons_of_mem y hmem
    exact hx.elim (fun hmem => hheld thread x (hrest hmem)) hcaptured
  · apply hheld thread x
    rw [hy]
    exact List.mem_cons_of_mem y hx

/-- Only a failed injection takes a frame away: what a thread injects comes back to it. -/
theorem waiting_step (hheld : Held accepts s) (hs : ClosedEmpty s) (h : step accepts s e = some s') :
    (pending s' thread).length + (failsOf thread e).toNat =
      (pending s thread).length + (entered accepts thread s e).length := by
  obtain ⟨hpending, -, hfails, hentered⟩ | ⟨frame, x, rest, rfl, hinject, hx, hpending, -, htaken⟩ |
    ⟨rfl, x, hx, -⟩ := step_cases hs h thread
  · simp [hpending, hfails, hentered]
  · have hmem : x ∈ pending s thread := by simp [hx]
    have hopened := opened_of_pending hs (List.ne_nil_of_mem hmem)
    obtain ⟨hfits, haccepts⟩ := hheld thread x hmem
    have hback : captured accepts thread s (.inject thread frame) = [⟨x.arrival, true, frame⟩] := by
      rw [htaken, taken, if_pos]
      rw [hopened, sees_eth0, eq_of_injectable hinject hfits, haccepts, Bool.and_self]
    simp [hpending, hx, hback, entered, failsOf]
  · simp [hx, entered, failsOf]

/-- With frames that fit into the snapshot, whatever has reached a thread from outside, an arrival
or what the other thread injects, still waits there or was lost in a failed injection. -/
theorem waiting_eq_entered {accepts : String → Frame → Bool} {es : List Event} {s : State}
    (hfits : ∀ e ∈ es, FitsSnapshot e) (h : run (step accepts) init es = some s) (thread : Thread) :
    (pending s thread).length + es.countP (failsOf thread) = (enteredFrames accepts thread es).length := by
  have hinit : ClosedEmpty init ∧ Held accepts init := ⟨closedEmpty_init, by simp [Held, pending, init]⟩
  have hok : Along (step accepts) (fun _ e => FitsSnapshot e) init es :=
    (along_event_iff h).mpr hfits
  have hinv (s : State) (e : Event) (s' : State) (hs : ClosedEmpty s ∧ Held accepts s)
      (he : FitsSnapshot e) (ht : step accepts s e = some s') : ClosedEmpty s' ∧ Held accepts s' :=
    ⟨hs.1.step ht, hs.2.step hs.1 he ht⟩
  have hcount : (pending s thread).length + es.countP (failsOf thread) =
      (pending init thread).length + (enteredFrames accepts thread es).length :=
    run_outputs_length hinv (fun s e s' hs _ ht => waiting_step hs.2 hs.1 ht) hinit hok h
  rwa [show (pending init thread).length = 0 from rfl, Nat.zero_add] at hcount

theorem waiting_eq_entered_feedback : ∃ s,
    run (step acceptsIpv4) init (feedback .client clientFrame) = some s ∧
      (pending s .client).length + (feedback .client clientFrame).countP (failsOf .client) =
        (enteredFrames acceptsIpv4 .client (feedback .client clientFrame)).length := by
  have haccepts : acceptsIpv4 (ifaces .client).filter clientFrame = true := by decide +kernel
  have hfits : ∀ e ∈ feedback .client clientFrame, FitsSnapshot e := by
    simp [feedback, FitsSnapshot, clientFrame, snaplen]
  obtain ⟨s, hrun, -⟩ := run_feedback acceptsIpv4 haccepts
  exact ⟨s, hrun, waiting_eq_entered hfits hrun .client⟩

end Runs

end WorkCode.ForwardedFrames
