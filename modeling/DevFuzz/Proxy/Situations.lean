import DevFuzz.Proxy.Handshake

/-! # The situations of an AP, its segment and the client

`Joint` lists the situations in which the running AP, its segment and the client
can be with respect to each other.  A lemma per access of either side says from
which situation it leads to which.
-/

namespace DevFuzz.Proxy

open DevFuzz.Lib DevFuzz.Lib.Bytes

/-! ## Situations -/

/-- What the client has to do with the segment of the running AP.  Once it has posted the exit
    message it is done with the segment. -/
inductive Link where
  | away
  | free
  | typed (payload : Payload)
  | filled (payload : Payload)
  | waiting
  | exitTyped
  | exitCleared
  deriving DecidableEq, Repr

def State.link (s : State) : Link :=
  match s.client with
  | .connect _ | .check _ | .exitClose | .aborted => .away
  | .idle | .entered _ => if s.sm.isSome then .free else .away
  | .returned _ | .send _ _ | .exitType => .free
  | .fill payload _ => .typed payload
  | .post payload _ => .filled payload
  | .wait _ => .waiting
  | .exitReady => .exitTyped
  | .exitPost => .exitCleared

/-- A segment that nobody has used. -/
structure Segment.Fresh (seg : Segment) : Prop where
  ready : seg.ready = false
  semr : seg.semr = 0
  semw : seg.semw = 0
  sent : seg.sent = []
  taken : seg.taken = []

/-- What an AP has set up before it raises the ready flag. -/
def Startup (path : List Char) (seg : Segment) : ApPc → Prop
  | .created | .zeroed | .renamed => True
  | .semrInit => seg.semrInit = true
  | .semwInit => seg.semrInit = true ∧ seg.semwInit = true
  | .pathSet => seg.semrInit = true ∧ seg.semwInit = true ∧ seg.path = path
  | _ => False

/-- A segment that is set up and has not been sent the exit message. -/
structure Segment.Up (path : List Char) (seg : Segment) : Prop where
  semrInit : seg.semrInit = true
  semwInit : seg.semwInit = true
  path_eq : seg.path = path
  noExit : Message.exit ∉ seg.sent

/-- No message is under way. -/
structure Segment.Settled (seg : Segment) : Prop where
  semr : seg.semr = 0
  semw : seg.semw = 0
  taken : seg.taken = seg.sent

/-- What the client has written so far. -/
def Fits (seg : Segment) : Link → Prop
  | .away | .free => True
  | .typed payload => seg.type = payload.type
  | .filled payload =>
    seg.type = payload.type ∧ Message.read payload.type seg.data = some (.data payload)
  | .exitTyped => seg.type = 0xff
  | .waiting | .exitCleared => False

/-- A message of the given type is on its way into the AP. -/
def Carried (seg : Segment) (type : UInt8) (ap : ApPc) : Prop :=
  (ap = .waiting ∧ seg.semw = 1) ∨ (ap = .received ∧ seg.semw = 0) ∨
    (ap = .handling type ∧ seg.semw = 0)

/-- The situations of the running AP, its segment and the client. -/
inductive Joint (path : List Char) : ApPc → Segment → Link → Prop where
  | starting {ap : ApPc} {seg : Segment} (fresh : seg.Fresh) (startup : Startup path seg ap) :
      Joint path ap seg .away
  | quiet {seg : Segment} {link : Link} (up : seg.Up path) (ready : seg.ready = true)
      (settled : seg.Settled) (fits : Fits seg link) : Joint path .waiting seg link
  -- a message is under way and the client waits for the answer
  | posted {ap : ApPc} {seg : Segment} {payload : Payload} (up : seg.Up path)
      (semr : seg.semr = 0) (sent : seg.sent = seg.taken ++ [.data payload])
      (type : seg.type = payload.type)
      (read : Message.read payload.type seg.data = some (.data payload))
      (carried : Carried seg payload.type ap) (ready : seg.ready = true) : Joint path ap seg .waiting
  | answering {seg : Segment} (up : seg.Up path) (ready : seg.ready = true)
      (settled : seg.Settled) : Joint path (.posting true) seg .waiting
  | answered {seg : Segment} (up : seg.Up path) (ready : seg.ready = true) (semr : seg.semr = 1)
      (semw : seg.semw = 0) (taken : seg.taken = seg.sent) : Joint path .waiting seg .waiting
  -- `ap_exit` from `sm->ready = 0` on
  | cleared {seg : Segment} (settled : seg.Settled) (ready : seg.ready = false)
      (type : seg.type = 0xff) : Joint path .waiting seg .exitCleared
  | leaving {ap : ApPc} {seg : Segment} (ready : seg.ready = false)
      (sent : seg.sent = seg.taken ++ [.exit]) (type : seg.type = 0xff)
      (carried : Carried seg 0xff ap) : Joint path ap seg .away
  | left {ap : ApPc} {seg : Segment} (ready : seg.ready = false) (taken : seg.taken = seg.sent)
      (ending : ap = .posting false ∨ ap = .closing ∨ ap = .unlinking ∨ ap = .exited) :
      Joint path ap seg .away

/-! ## The AP moves from one situation to the next -/

section

variable {path : List Char} {seg : Segment} {link : Link}

/-- Before the AP waits for its first message. -/
def ApPc.early : ApPc → Bool
  | .created | .zeroed | .renamed | .semrInit | .semwInit | .pathSet => true
  | _ => false

/-- After the AP has left its event loop. -/
def ApPc.late : ApPc → Bool
  | .closing | .unlinking | .exited => true
  | _ => false

theorem Joint.of_early {ap : ApPc} (joint : Joint path ap seg link) (early : ap.early = true) :
    link = .away ∧ seg.Fresh ∧ Startup path seg ap := by
  cases joint with
  | starting fresh startup => exact ⟨rfl, fresh, startup⟩
  | posted up semr sent type read carried ready =>
    rcases carried with ⟨rfl, -⟩ | ⟨rfl, -⟩ | ⟨rfl, -⟩ <;> cases early
  | leaving ready sent type carried =>
    rcases carried with ⟨rfl, -⟩ | ⟨rfl, -⟩ | ⟨rfl, -⟩ <;> cases early
  | left ready taken ending => rcases ending with rfl | rfl | rfl | rfl <;> cases early
  | _ => cases early

theorem Joint.of_late {ap : ApPc} (joint : Joint path ap seg link) (late : ap.late = true) :
    link = .away ∧ seg.ready = false ∧ seg.taken = seg.sent := by
  cases joint with
  | starting fresh startup => exact ⟨rfl, fresh.ready, by rw [fresh.taken, fresh.sent]⟩
  | posted up semr sent type read carried ready =>
    rcases carried with ⟨rfl, -⟩ | ⟨rfl, -⟩ | ⟨rfl, -⟩ <;> cases late
  | leaving ready sent type carried =>
    rcases carried with ⟨rfl, -⟩ | ⟨rfl, -⟩ | ⟨rfl, -⟩ <;> cases late
  | left ready taken ending => exact ⟨rfl, ready, taken⟩
  | _ => cases late

theorem Joint.raise (joint : Joint path .pathSet seg link) :
    Joint path .waiting { seg with ready := true } link := by
  obtain ⟨rfl, fresh, semrInit, semwInit, path_eq⟩ := joint.of_early rfl
  exact .quiet ⟨semrInit, semwInit, path_eq, by simp [fresh.sent]⟩ rfl
    ⟨fresh.semr, fresh.semw, by simp [fresh.sent, fresh.taken]⟩ trivial

theorem Joint.receive (joint : Joint path .waiting seg link) (some : seg.semw ≠ 0) :
    Joint path .received { seg with semw := seg.semw - 1 } link := by
  cases joint with
  | starting fresh startup => exact absurd startup id
  | quiet up ready settled fits => exact absurd settled.semw some
  | posted up semr sent type read carried ready =>
    have one : seg.semw = 1 := by simpa [Carried] using carried
    exact .posted ⟨up.semrInit, up.semwInit, up.path_eq, up.noExit⟩ semr sent type read
      (.inr (.inl ⟨rfl, by simp [one]⟩)) ready
  | answered up ready semr semw taken => exact absurd semw some
  | cleared settled ready type => exact absurd settled.semw some
  | leaving ready sent type carried =>
    have one : seg.semw = 1 := by simpa [Carried] using carried
    exact .leaving ready sent type (.inr (.inl ⟨rfl, by simp [one]⟩))
  | left ready taken ending => simp at ending

theorem Joint.switch (joint : Joint path .received seg link) :
    Joint path (.handling seg.type) seg link := by
  cases joint with
  | starting fresh startup => exact absurd startup id
  | posted up semr sent type read carried ready =>
    have zero : seg.semw = 0 := by simpa [Carried] using carried
    exact .posted up semr sent type read (.inr (.inr ⟨by rw [type], zero⟩)) ready
  | leaving ready sent type carried =>
    have zero : seg.semw = 0 := by simpa [Carried] using carried
    exact .leaving ready sent type (.inr (.inr ⟨by rw [type], zero⟩))
  | left ready taken ending => simp at ending

/-- The AP never meets an unknown type, and takes the message that was sent. -/
theorem Joint.handle {type : UInt8} (joint : Joint path (.handling type) seg link) :
    ∃ m, Message.read type seg.data = some m ∧
      Joint path (.posting (m ≠ .exit)) { seg with taken := seg.taken ++ [m] } link := by
  cases joint with
  | starting fresh startup => exact absurd startup id
  | @posted _ _ payload up semr sent typed read carried ready =>
    obtain ⟨rfl, zero⟩ : type = payload.type ∧ seg.semw = 0 := by simpa [Carried] using carried
    exact ⟨_, read, .answering ⟨up.semrInit, up.semwInit, up.path_eq, up.noExit⟩ ready
      ⟨semr, zero, sent.symm⟩⟩
  | leaving ready sent typed carried =>
    obtain ⟨rfl, zero⟩ : type = 0xff ∧ seg.semw = 0 := by simpa [Carried] using carried
    exact ⟨.exit, rfl, .left ready sent.symm (.inl rfl)⟩
  | left ready taken ending => simp at ending

theorem Joint.answer {run : Bool} (joint : Joint path (.posting run) seg link) :
    Joint path (if run then .waiting else .closing) { seg with semr := seg.semr + 1 } link := by
  cases joint with
  | starting fresh startup => exact absurd startup id
  | posted up semr sent type read carried ready => simp [Carried] at carried
  | answering up ready settled =>
    exact .answered ⟨up.semrInit, up.semwInit, up.path_eq, up.noExit⟩ ready (by simp [settled.semr])
      settled.semw settled.taken
  | leaving ready sent type carried => simp [Carried] at carried
  | left ready taken ending =>
    obtain rfl : run = false := by simpa using ending
    exact .left ready taken (.inr (.inl rfl))

end

/-! ## The client moves from one situation to the next -/

section

variable {path : List Char} {ap : ApPc} {seg : Segment}

/-- A ready segment is one the AP waits on; no other situation shows the flag to a client that
    is not connected. -/
theorem Joint.connect (joint : Joint path ap seg .away) (raised : seg.ready = true) :
    Joint path ap seg .free := by
  cases joint with
  | starting fresh startup => simp [fresh.ready] at raised
  | quiet up ready settled fits => exact .quiet up ready settled trivial
  | leaving ready sent type carried => simp [ready] at raised
  | left ready taken ending => simp [ready] at raised

theorem Joint.send (joint : Joint path ap seg .free) (payload : Payload) :
    Joint path ap { seg with type := payload.type } (.typed payload) := by
  cases joint with
  | quiet up ready settled fits =>
    exact .quiet ⟨up.semrInit, up.semwInit, up.path_eq, up.noExit⟩ ready
      ⟨settled.semr, settled.semw, settled.taken⟩ rfl

theorem Joint.fill {payload : Payload} (joint : Joint path ap seg (.typed payload)) :
    Joint path ap { seg with data := payload.write seg.data } (.filled payload) := by
  cases joint with
  | quiet up ready settled fits =>
    exact .quiet ⟨up.semrInit, up.semwInit, up.path_eq, up.noExit⟩ ready
      ⟨settled.semr, settled.semw, settled.taken⟩ ⟨fits, Message.read_write payload seg.data⟩

theorem Joint.post {payload : Payload} (joint : Joint path ap seg (.filled payload)) :
    Joint path ap { seg with semw := seg.semw + 1, sent := seg.sent ++ [.data payload] } .waiting := by
  cases joint with
  | quiet up ready settled fits =>
    exact .posted ⟨up.semrInit, up.semwInit, up.path_eq, by simp [up.noExit]⟩ settled.semr
      (by simp [settled.taken]) fits.1 fits.2 (.inl ⟨rfl, by simp [settled.semw]⟩) ready

/-- Only an acknowledgement of the AP lets the client go on. -/
theorem Joint.resume (joint : Joint path ap seg .waiting) (some : seg.semr ≠ 0) :
    Joint path ap { seg with semr := seg.semr - 1 } .free := by
  cases joint with
  | quiet up ready settled fits => exact absurd fits id
  | posted up semr sent type read carried ready => exact absurd semr some
  | answering up ready settled => exact absurd settled.semr some
  | answered up ready semr semw taken =>
    exact .quiet ⟨up.semrInit, up.semwInit, up.path_eq, up.noExit⟩ ready
      ⟨by simp [semr], semw, taken⟩ trivial

theorem Joint.exitType (joint : Joint path ap seg .free) :
    Joint path ap { seg with type := 0xff } .exitTyped := by
  cases joint with
  | quiet up ready settled fits =>
    exact .quiet ⟨up.semrInit, up.semwInit, up.path_eq, up.noExit⟩ ready
      ⟨settled.semr, settled.semw, settled.taken⟩ rfl

theorem Joint.exitReady (joint : Joint path ap seg .exitTyped) :
    Joint path ap { seg with ready := false } .exitCleared := by
  cases joint with
  | quiet up ready settled fits =>
    exact .cleared ⟨settled.semr, settled.semw, settled.taken⟩ rfl fits

theorem Joint.exitPost (joint : Joint path ap seg .exitCleared) :
    Joint path ap { seg with semw := seg.semw + 1, sent := seg.sent ++ [.exit] } .away := by
  cases joint with
  | quiet up ready settled fits => exact absurd fits id
  | cleared settled ready type =>
    exact .leaving ready (by simp [settled.taken]) type (.inl ⟨rfl, by simp [settled.semw]⟩)

end

/-! ## What a situation tells -/

theorem Joint.taken_of_posting {path : List Char} {run : Bool} {seg : Segment} {link : Link}
    (joint : Joint path (.posting run) seg link) : seg.taken = seg.sent := by
  cases joint with
  | starting fresh startup => exact absurd startup id
  | posted up semr sent type read carried ready => simp [Carried] at carried
  | answering up ready settled => exact settled.taken
  | leaving ready sent type carried => simp [Carried] at carried
  | left ready taken ending => exact taken

theorem Joint.of_free {path : List Char} {ap : ApPc} {seg : Segment} (joint : Joint path ap seg .free) :
    ap = .waiting ∧ seg.Up path := by
  cases joint with
  | quiet up ready settled fits => exact ⟨rfl, up⟩

theorem Joint.not_blocked {path : List Char} {seg : Segment} (joint : Joint path .waiting seg .waiting) :
    ¬ (seg.semr = 0 ∧ seg.semw = 0) := by
  rintro ⟨noAnswer, noMessage⟩
  cases joint with
  | quiet up ready settled fits => exact fits
  | posted up semr sent type read carried ready => simp [Carried, noMessage] at carried
  | answered up ready semr semw taken => omega

end DevFuzz.Proxy
