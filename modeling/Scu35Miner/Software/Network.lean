import Scu35Miner.Fips180.Compression
import Scu35Miner.Transition.Run

open fips180 transition

namespace scu35.network_interface

def XEL_RSR_RECV_DONE_MASK : Word := 0x00000001
def XEL_ETHER_PROTO_TYPE_IP : BitVec 16 := 0x0800
def XEL_ETHER_PROTO_TYPE_ARP : BitVec 16 := 0x0806
def XEL_FCS_SIZE : Nat := 4
def ipconfigNETWORK_MTU : Nat := 1500

/-- The two receive buffers; `base ^= XEL_BUFFER_OFFSET` is `other`. -/
inductive Base where
  | ping
  | pong
deriving DecidableEq, Repr, Inhabited

def Base.other : Base → Base
  | .ping => .pong
  | .pong => .ping

/-- The registers of one receive buffer that the driver reads: its status and
the two header words with the EtherType and the IPv4 length. -/
structure RxBuffer where
  status : Word
  type_word : Word
  length_word : Word
deriving DecidableEq, Repr, Inhabited

def RxBuffer.done (b : RxBuffer) : Bool := b.status &&& XEL_RSR_RECV_DONE_MASK != 0

/-- The first two bytes of a register, in network order. -/
def halfword (word : Word) : BitVec 16 := (((word &&& 255) <<< 8) ||| ((word >>> 8) &&& 255)).setWidth 16

def length_valid (word : Word) : Bool :=
  20 ≤ (halfword word).toNat && (halfword word).toNat ≤ ipconfigNETWORK_MTU

/-- What `bounded_receive` accepts. -/
def RxBuffer.valid (b : RxBuffer) : Bool :=
  halfword b.type_word == XEL_ETHER_PROTO_TYPE_ARP ||
    (halfword b.type_word == XEL_ETHER_PROTO_TYPE_IP && length_valid b.length_word)

/-- The number of bytes that `XEmacLite_Recv` copies out of a buffer. -/
def RxBuffer.copy_length (b : RxBuffer) : Nat :=
  let n := if halfword b.type_word == XEL_ETHER_PROTO_TYPE_IP then (halfword b.length_word).toNat else 28
  (n + 18) % 2 ^ 16

/-- What the driver does with its own bookkeeping after a copy: the buffer it
expects next, given whether the expected one held the frame, and the status it
writes back. -/
structure Driver where
  advance : Base → Bool → Base
  acknowledge : Word → Word

/-- The driver of the host test. -/
def Driver.mock : Driver where
  advance := fun next _ => next
  acknowledge := fun _ => 0

/-- Program counter of `bounded_receive`, one case for each device access,
with the local variables that are still live there. -/
inductive Control where
  | returned (n : Int)
  | get_next_status
  | get_other_status
  | read_type (base : Base) (status : Word)
  | read_length (base : Base) (status : Word)
  | set_rx_status (base : Base) (status : Word)
  | recv_get_status (base : Base)
  | recv_copy (base source : Base) (in_sync : Bool)
deriving DecidableEq, Repr

/-- A completed copy: the buffer that was checked, the buffer that was copied
and its length, and whether a frame had landed in the expected buffer after
the call found that buffer empty. -/
structure Copy where
  checked : Base
  source : Base
  length : Nat
  landed : Bool
deriving DecidableEq, Repr

structure State where
  ping : RxBuffer
  pong : RxBuffer
  next : Base
  control : Control
  landed : Bool
  copies : List Copy
deriving DecidableEq, Repr

def State.buffer (s : State) : Base → RxBuffer
  | .ping => s.ping
  | .pong => s.pong

def State.set (s : State) (base : Base) (b : RxBuffer) : State :=
  match base with
  | .ping => { s with ping := b }
  | .pong => { s with pong := b }

def State.go (s : State) (control : Control) : State := { s with control }

/-- One device access of `bounded_receive`, or its next call. -/
def State.access (d : Driver) (s : State) : State :=
  match s.control with
  | .returned _ => { s with control := .get_next_status, landed := false }
  | .get_next_status =>
    if (s.buffer s.next).done then s.go (.read_type s.next (s.buffer s.next).status) else s.go .get_other_status
  | .get_other_status =>
    if (s.buffer s.next.other).done then s.go (.read_type s.next.other (s.buffer s.next.other).status)
    else s.go (.returned 0)
  | .read_type base status =>
    let type := halfword (s.buffer base).type_word
    if type == XEL_ETHER_PROTO_TYPE_IP then s.go (.read_length base status)
    else if type == XEL_ETHER_PROTO_TYPE_ARP then s.go (.recv_get_status base)
    else s.go (.set_rx_status base status)
  | .read_length base status =>
    if length_valid (s.buffer base).length_word then s.go (.recv_get_status base)
    else s.go (.set_rx_status base status)
  | .set_rx_status base status =>
    (s.set base { s.buffer base with status := status &&& ~~~XEL_RSR_RECV_DONE_MASK }).go (.returned (-1))
  | .recv_get_status base =>
    if (s.buffer s.next).done then s.go (.recv_copy base s.next true)
    else s.go (.recv_copy base s.next.other false)
  | .recv_copy base source in_sync =>
    let n := (s.buffer source).copy_length
    let copy : Copy := ⟨base, source, n, s.landed⟩
    let s := s.set source { s.buffer source with status := d.acknowledge (s.buffer source).status }
    { s with
      next := d.advance s.next in_sync
      copies := s.copies ++ [copy]
      control := .returned (if XEL_FCS_SIZE ≤ n then ((n - XEL_FCS_SIZE : Nat) : Int) else -1) }

/-- Between the two reads of the expected buffer's status, the check's own and
the one inside `XEmacLite_Recv`. -/
def Control.polled : Control → Bool
  | .returned _ => false
  | .get_next_status => false
  | .recv_copy _ _ _ => false
  | _ => true

/-- The hardware writes a frame into a buffer whose flag is clear. -/
def State.arrive (s : State) (base : Base) (type_word length_word : Word) : State :=
  if (s.buffer base).done then s
  else
    { s.set base ⟨(s.buffer base).status ||| XEL_RSR_RECV_DONE_MASK, type_word, length_word⟩ with
      landed := s.landed || (s.control.polled && base == s.next) }

inductive Event where
  | access
  | arrive (base : Base) (type_word length_word : Word)

def step (d : Driver) (s : State) : Event → State
  | .access => s.access d
  | .arrive base type_word length_word => s.arrive base type_word length_word

@[simp] theorem buffer_go (s : State) (control : Control) (b : Base) : (s.go control).buffer b = s.buffer b := by
  cases b <;> rfl

/-- A frame lands only in a buffer whose flag is clear, sets the flag there and
touches nothing else. -/
theorem buffer_arrive (s : State) (base b : Base) (type_word length_word : Word) :
    (s.arrive base type_word length_word).buffer b =
      if base = b ∧ (s.buffer base).done = false then
        ⟨(s.buffer base).status ||| XEL_RSR_RECV_DONE_MASK, type_word, length_word⟩
      else s.buffer b := by
  cases hdone : (s.buffer base).done <;> cases base <;> cases b <;> simp_all [State.arrive, State.set, State.buffer]

theorem done_arrived (status type_word length_word : Word) :
    (RxBuffer.mk (status ||| XEL_RSR_RECV_DONE_MASK) type_word length_word).done = true := by
  simp only [RxBuffer.done, bne_iff_ne, ne_eq]
  intro h
  have hbit := congrArg (fun x => BitVec.getLsbD x 0) h
  simp [XEL_RSR_RECV_DONE_MASK] at hbit

@[simp] theorem arrive_control (s : State) (base : Base) (type_word length_word : Word) :
    (s.arrive base type_word length_word).control = s.control := by
  unfold State.arrive
  split
  · rfl
  · cases base <;> rfl

@[simp] theorem arrive_next (s : State) (base : Base) (type_word length_word : Word) :
    (s.arrive base type_word length_word).next = s.next := by
  unfold State.arrive
  split
  · rfl
  · cases base <;> rfl

@[simp] theorem arrive_copies (s : State) (base : Base) (type_word length_word : Word) :
    (s.arrive base type_word length_word).copies = s.copies := by
  unfold State.arrive
  split
  · rfl
  · cases base <;> rfl

theorem arrive_landed (s : State) (base : Base) (type_word length_word : Word) :
    (s.arrive base type_word length_word).landed =
      (s.landed || (!(s.buffer base).done && s.control.polled && base == s.next)) := by
  unfold State.arrive
  cases hdone : (s.buffer base).done <;> cases base <;> simp

/-- What the call knows about the buffer it has chosen: it is full, and when it
is not the expected one, the expected one is full exactly if a frame landed
there meanwhile. -/
structure State.Holds (s : State) (base : Base) : Prop where
  done : (s.buffer base).done = true
  landed : s.landed = (decide (base ≠ s.next) && (s.buffer s.next).done)

/-- What holds at each access of `bounded_receive`. -/
def State.Point (s : State) : Control → Prop
  | .returned _ => True
  | .get_next_status => s.landed = false
  | .get_other_status => s.landed = (s.buffer s.next).done
  | .read_type base _ => s.Holds base
  | .read_length base _ => s.Holds base ∧ halfword (s.buffer base).type_word = XEL_ETHER_PROTO_TYPE_IP
  | .set_rx_status _ _ => True
  | .recv_get_status base => s.Holds base ∧ (s.buffer base).valid = true
  | .recv_copy base source _ => (source = base ↔ s.landed = false) ∧
      (s.buffer base).done = true ∧ (s.buffer base).valid = true

/-- The copied bytes are those of the checked frame, and fit the buffer. -/
def Copy.Good (c : Copy) : Prop := c.source = c.checked ∧ c.length ≤ 1518

structure State.Consistent (s : State) : Prop where
  point : s.Point s.control
  copies : ∀ c ∈ s.copies, c.Good ↔ c.landed = false

theorem copy_length_le {b : RxBuffer} (h : b.valid = true) : b.copy_length ≤ 1518 := by
  have hmod := Nat.mod_le ((halfword b.length_word).toNat + 18) (2 ^ 16)
  simp only [RxBuffer.valid, Bool.or_eq_true, Bool.and_eq_true, beq_iff_eq, length_valid, decide_eq_true_eq,
    ipconfigNETWORK_MTU] at h
  simp only [RxBuffer.copy_length, beq_iff_eq]
  split
  next hip =>
    rcases h with harp | ⟨_, _, hle⟩
    · rw [hip] at harp
      exact absurd harp (by decide)
    · have hmtu : (halfword b.length_word).toNat ≤ 1500 := of_decide_eq_true hle
      omega
  next => omega

/-- A frame that lands leaves a full buffer alone. -/
theorem buffer_arrive_of_done {s : State} {b : Base} (hdone : (s.buffer b).done = true) (base : Base)
    (type_word length_word : Word) : (s.arrive base type_word length_word).buffer b = s.buffer b := by
  rw [buffer_arrive]
  split
  next h =>
    obtain ⟨rfl, hclear⟩ := h
    rw [hdone] at hclear
    cases hclear
  next => rfl

/-- The expected buffer is full after an arrival if it was full before or the
frame landed there. -/
theorem done_next_arrive (s : State) (base : Base) (type_word length_word : Word) :
    ((s.arrive base type_word length_word).buffer s.next).done =
      ((s.buffer s.next).done || (!(s.buffer base).done && base == s.next)) := by
  rw [buffer_arrive]
  by_cases hbase : base = s.next
  · subst hbase
    cases hdone : (s.buffer s.next).done
    · simp only [and_self, ↓reduceIte, done_arrived, Bool.not_false, beq_self_eq_true, Bool.and_self, Bool.or_true]
    · simp [hdone]
  · simp [hbase]

theorem State.Holds.arrive {s : State} {b : Base} (h : s.Holds b) (hpolled : s.control.polled = true)
    (base : Base) (type_word length_word : Word) : (s.arrive base type_word length_word).Holds b where
  done := by rw [buffer_arrive_of_done h.done, h.done]
  landed := by
    rw [arrive_landed, arrive_next, done_next_arrive, hpolled, h.landed]
    by_cases hb : b = s.next
    · subst hb
      by_cases hbase : base = s.next
      · subst hbase
        simp [h.done]
      · simp [hbase]
    · simp [hb]

/-- An arrival at any moment keeps what the call relies on. -/
theorem arrive_consistent {s : State} (h : s.Consistent) (base : Base) (type_word length_word : Word) :
    (s.arrive base type_word length_word).Consistent := by
  have hpoint := h.point
  refine ⟨?_, by simpa using h.copies⟩
  rw [arrive_control]
  cases hcontrol : s.control with
  | returned n => trivial
  | get_next_status =>
    rw [hcontrol] at hpoint
    have hlanded : s.landed = false := hpoint
    change (s.arrive base type_word length_word).landed = false
    simp [arrive_landed, hcontrol, Control.polled, hlanded]
  | get_other_status =>
    rw [hcontrol] at hpoint
    have hlanded : s.landed = (s.buffer s.next).done := hpoint
    change (s.arrive base type_word length_word).landed = _
    rw [arrive_next, done_next_arrive, arrive_landed, hcontrol, hlanded]
    simp [Control.polled]
  | read_type b status =>
    rw [hcontrol] at hpoint
    exact State.Holds.arrive hpoint (by rw [hcontrol]; rfl) _ _ _
  | read_length b status =>
    rw [hcontrol] at hpoint
    obtain ⟨hholds, htype⟩ := hpoint
    refine ⟨hholds.arrive (by rw [hcontrol]; rfl) _ _ _, ?_⟩
    rw [buffer_arrive_of_done hholds.done, htype]
  | set_rx_status b status => trivial
  | recv_get_status b =>
    rw [hcontrol] at hpoint
    obtain ⟨hholds, hvalid⟩ := hpoint
    refine ⟨hholds.arrive (by rw [hcontrol]; rfl) _ _ _, ?_⟩
    rw [buffer_arrive_of_done hholds.done, hvalid]
  | recv_copy b source in_sync =>
    rw [hcontrol] at hpoint
    obtain ⟨hsource, hdone, hvalid⟩ := hpoint
    refine ⟨?_, ?_, ?_⟩
    · rw [hsource, arrive_landed, hcontrol]
      simp [Control.polled]
    · rw [buffer_arrive_of_done hdone, hdone]
    · rw [buffer_arrive_of_done hdone, hvalid]

theorem Holds_go {s : State} {b : Base} (h : s.Holds b) (control : Control) : (s.go control).Holds b where
  done := by rw [buffer_go, h.done]
  landed := by
    rw [buffer_go]
    exact h.landed

theorem other_ne (b : Base) : b.other ≠ b := by cases b <;> decide

theorem eq_other_of_ne {a b : Base} (h : a ≠ b) : a = b.other := by
  cases a <;> cases b <;> simp_all [Base.other]

/-- Every access of `bounded_receive` keeps what the call relies on, and the
copy it may end with is good exactly when nothing landed. -/
theorem access_consistent (d : Driver) {s : State} (h : s.Consistent) : (s.access d).Consistent := by
  have hpoint := h.point
  unfold State.access
  cases hcontrol : s.control with
  | returned n => exact ⟨rfl, h.copies⟩
  | get_next_status =>
    rw [hcontrol] at hpoint
    have hlanded : s.landed = false := hpoint
    simp only
    split
    next hdone => exact ⟨Holds_go ⟨hdone, by simp [hlanded]⟩ _, h.copies⟩
    next hclear =>
      refine ⟨?_, h.copies⟩
      change s.landed = ((s.go _).buffer s.next).done
      rw [buffer_go, hlanded, Bool.eq_false_iff.mpr hclear]
  | get_other_status =>
    rw [hcontrol] at hpoint
    have hlanded : s.landed = (s.buffer s.next).done := hpoint
    simp only
    split
    next hdone => exact ⟨Holds_go ⟨hdone, by simp [hlanded, other_ne]⟩ _, h.copies⟩
    next => exact ⟨trivial, h.copies⟩
  | read_type base status =>
    rw [hcontrol] at hpoint
    have hholds : s.Holds base := hpoint
    simp only [beq_iff_eq]
    split
    next hip => exact ⟨⟨Holds_go hholds _, by rw [buffer_go, hip]⟩, h.copies⟩
    next hnip =>
      split
      next harp => exact ⟨⟨Holds_go hholds _, by rw [buffer_go]; simp [RxBuffer.valid, harp]⟩, h.copies⟩
      next => exact ⟨trivial, h.copies⟩
  | read_length base status =>
    rw [hcontrol] at hpoint
    obtain ⟨hholds, hip⟩ := hpoint
    simp only
    split
    next hlen => exact ⟨⟨Holds_go hholds _, by rw [buffer_go]; simp [RxBuffer.valid, hip, hlen]⟩, h.copies⟩
    next => exact ⟨trivial, h.copies⟩
  | set_rx_status base status =>
    refine ⟨trivial, ?_⟩
    cases base <;> exact h.copies
  | recv_get_status base =>
    rw [hcontrol] at hpoint
    obtain ⟨hholds, hvalid⟩ := hpoint
    have hlanded := hholds.landed
    simp only
    split
    next hdone =>
      refine ⟨⟨?_, by rw [buffer_go, hholds.done], by rw [buffer_go, hvalid]⟩, h.copies⟩
      change s.next = base ↔ s.landed = false
      rw [hlanded, hdone, Bool.and_true, decide_eq_false_iff_not, not_not]
      exact eq_comm
    next hclear =>
      refine ⟨⟨?_, by rw [buffer_go, hholds.done], by rw [buffer_go, hvalid]⟩, h.copies⟩
      change s.next.other = base ↔ s.landed = false
      have hne : base ≠ s.next := by
        intro heq
        rw [heq] at hholds
        exact hclear hholds.done
      rw [hlanded, Bool.eq_false_iff.mpr hclear, eq_other_of_ne hne]
      simp
  | recv_copy base source in_sync =>
    rw [hcontrol] at hpoint
    obtain ⟨hsource, hdone, hvalid⟩ := hpoint
    refine ⟨trivial, ?_⟩
    intro c hc
    have hcopies : (s.set source { s.buffer source with
        status := d.acknowledge (s.buffer source).status }).copies = s.copies := by cases source <;> rfl
    simp only [hcopies, List.mem_append, List.mem_singleton] at hc
    rcases hc with hold | rfl
    · exact h.copies c hold
    · simp only [Copy.Good]
      constructor
      · intro hgood
        exact hsource.mp hgood.1
      · intro hlanded
        have heq := hsource.mpr hlanded
        exact ⟨heq, heq ▸ copy_length_le hvalid⟩

theorem step_consistent (d : Driver) {s : State} (h : s.Consistent) (e : Event) : (step d s e).Consistent := by
  cases e with
  | access => exact access_consistent d h
  | arrive base type_word length_word => exact arrive_consistent h base type_word length_word

/-- Before the first call, with whatever the two buffers hold. -/
structure State.Fresh (s : State) : Prop where
  control : s.control = .returned 0
  copies : s.copies = []

/-- In every interleaving of frame arrivals with any number of calls, a copy is
taken from the checked buffer, and is at most 1518 bytes long, exactly when no
frame landed in the expected buffer between the two reads of its status. -/
theorem copy_good_iff_not_landed (d : Driver) {s : State} (hfresh : s.Fresh) (events : List Event) :
    ∀ c ∈ (run (step d) s events).copies, c.Good ↔ c.landed = false := by
  have hstart : s.Consistent := ⟨by rw [hfresh.control]; trivial, by simp [hfresh.copies]⟩
  exact (run_invariant (P := State.Consistent) (fun _ e h => step_consistent d h e) hstart events).copies

/-- Both buffers empty and the driver expecting the first one. -/
def State.reset : State where
  ping := ⟨0, 0, 0⟩
  pong := ⟨0, 0, 0⟩
  next := .ping
  control := .returned 0
  landed := false
  copies := []

/-- An ARP frame in the second buffer, received in peace. -/
def arp_events : List Event := .arrive .pong 0x0608 0 :: List.replicate 6 .access

theorem arp_copy_good_iff : (run (step .mock) .reset arp_events).copies = [⟨.pong, .pong, 46, false⟩] ∧
    ∀ c ∈ (run (step .mock) .reset arp_events).copies, c.Good ↔ c.landed = false :=
  ⟨by decide, copy_good_iff_not_landed .mock ⟨rfl, rfl⟩ arp_events⟩

/-- The same ARP frame, with an IPv4 frame that claims 2000 bytes landing in
the first buffer after the second has been checked. -/
def race_events : List Event :=
  .arrive .pong 0x0608 0 :: List.replicate 4 .access ++ [.arrive .ping 0x0008 0xd007, .access, .access]

/-- The copy then comes from the buffer that nobody checked. -/
theorem race_copies_unchecked : (run (step .mock) .reset race_events).copies = [⟨.pong, .ping, 2018, true⟩] ∧
    ¬ ∀ c ∈ (run (step .mock) .reset race_events).copies, c.Good := by
  have hcopies : (run (step .mock) .reset race_events).copies = [⟨.pong, .ping, 2018, true⟩] := by decide
  refine ⟨hcopies, ?_⟩
  rw [hcopies]
  simp [Copy.Good]

end scu35.network_interface
