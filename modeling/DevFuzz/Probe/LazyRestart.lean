import DevFuzz.Probe.Model
import Mathlib.Data.List.Induction
import Mathlib.Data.List.Nodup

/-! # Models that restart lazily

In the device models with `CHECK_RESET` (`HWModel_epic100`, `HWModel_sis190`,
`HWModel_ksz884x` and others) a restart only counts up `restart_cnt`.  Every block
remembers the count that it has last seen, and starts over when it is next read with a
higher one.

`lazyRestart_exact` says that this is as good as resetting all blocks at once, as long as
the counter does not wrap around; `not_exact_wrapped` is what happens then.
-/

namespace DevFuzz.Probe

open DevFuzz.Lib.Bytes

/-! ## The model -/

/-- The text of a model: its constant, its blocks and whether there is a `default`. -/
structure LazyCode where
  limit : Nat
  blocks : List (UInt64 × List (Int × Int))
  /-- the labels of a `switch` are different -/
  nodup : (blocks.map Prod.fst).Nodup
  hasDefault : Bool

/-- A `case` block with `static int cnt` and `static uint64_t ver`. -/
structure LazyBlock where
  block : CaseBlock UInt64
  cnt : Nat
  ver : UInt64

/-- `CHECK_RESET` -/
def LazyBlock.checkReset (live : LazyBlock) (restartCnt : UInt64) : LazyBlock :=
  if restartCnt > live.ver then { live with ver := restartCnt, cnt := 0 } else live

def LazyBlock.body (live : LazyBlock) (restartCnt : UInt64) (dest : Memory) : LazyBlock × Memory :=
  let live := live.checkReset restartCnt
  ({ live with cnt := live.cnt + 1 }, runAssigns live.block.assigns live.cnt dest)

/-- The members `probe_len` and `restart_cnt`, and the blocks with their static variables. -/
structure LazyModel where
  limit : Nat
  hasDefault : Bool
  probeLen : Nat
  restartCnt : UInt64
  blocks : List LazyBlock

def LazyModel.fresh (code : LazyCode) : LazyModel where
  limit := code.limit
  hasDefault := code.hasDefault
  probeLen := 0
  restartCnt := 0
  blocks := code.blocks.map fun block => ⟨generateCodeBlock block.1 block.2, 0, 0⟩

/-- `virtual void restart_device() final { probe_len = 0; restart_cnt++; }` -/
def LazyModel.restartDevice (model : LazyModel) : LazyModel :=
  { model with probeLen := 0, restartCnt := model.restartCnt + 1 }

/-- A call of `read`, with what `rand` returns in the default case. -/
structure LazyRequest extends Request where
  rand : Nat

/-- The `default` block. -/
def defaultBlock (hasDefault : Bool) (request : LazyRequest) : Memory :=
  if hasDefault ∧ (request.size = 1 ∨ request.size = 2 ∨ request.size = 4) then
    storeLE request.dest 0 request.size request.rand
  else request.dest

/-- `switch (addr)`; every block ends in `break`. -/
def lazySwitch (hasDefault : Bool) (restartCnt : UInt64) (request : LazyRequest) :
    List LazyBlock → List LazyBlock × Memory
  | [] => ([], defaultBlock hasDefault request)
  | live :: rest =>
    if live.block.addr = request.addr then
      let (live, dest) := live.body restartCnt request.dest
      (live :: rest, dest)
    else
      let (rest, dest) := lazySwitch hasDefault restartCnt request rest
      (live :: rest, dest)

def LazyModel.read (model : LazyModel) (request : LazyRequest) : Answer × LazyModel :=
  if model.probeLen > model.limit then (⟨0, request.dest⟩, model)
  else
    let (blocks, dest) := lazySwitch model.hasDefault model.restartCnt request model.blocks
    (⟨request.size, dest⟩, { model with blocks := blocks, probeLen := model.probeLen + 1 })

inductive Action where
  | read (request : LazyRequest)
  | restart

def LazyModel.step (model : LazyModel) : Action → LazyModel
  | .read request => (model.read request).2
  | .restart => model.restartDevice

def LazyModel.after (model : LazyModel) (actions : List Action) : LazyModel := actions.foldl step model

theorem LazyModel.after_append (model : LazyModel) (first second : List Action) :
    model.after (first ++ second) = (model.after first).after second :=
  List.foldl_append

/-! ## What the answers should be -/

/-- The number of reads, of those that satisfy `p`, since the last restart. -/
def readsSince (p : LazyRequest → Bool) (actions : List Action) : Nat :=
  actions.foldl (fun count action => match action with
    | .read request => if p request then count + 1 else count
    | .restart => 0) 0

def restarts (actions : List Action) : Nat := actions.countP fun action => action matches .restart

/-- Between restarts there are fewer reads than the probe limit. -/
def FewReads (limit : Nat) (actions : List Action) : Prop :=
  ∀ before, before <+: actions → readsSince (fun _ => true) before < limit

/-- Each read returns the entry recorded for its number since the last restart. -/
def LazyCode.Exact (code : LazyCode) (actions : List Action) : Prop :=
  ∀ before request, before ++ [.read request] <+: actions → ∀ values entry, (request.addr, values) ∈ code.blocks →
    values[readsSince (·.addr = request.addr) before]? = some entry →
      (((LazyModel.fresh code).after before).read request).1 = ⟨request.size, storeEntry request.dest (some entry)⟩

/-! ## The invariant -/

section

variable {p : LazyRequest → Bool} {before : List Action}

theorem readsSince_read (request : LazyRequest) :
    readsSince p (before ++ [.read request]) = if p request then readsSince p before + 1 else readsSince p before :=
  List.foldl_append

theorem readsSince_restart : readsSince p (before ++ [.restart]) = 0 := List.foldl_append

theorem restarts_read (request : LazyRequest) : restarts (before ++ [.read request]) = restarts before := by
  simp [restarts]

theorem restarts_restart : restarts (before ++ [.restart]) = restarts before + 1 := by
  simp [restarts]

end

theorem readsSince_le (p : LazyRequest → Bool) (actions : List Action) :
    readsSince p actions ≤ actions.countP fun action => action matches .read _ := by
  induction actions using List.reverseRecOn with
  | nil => exact Nat.le_refl 0
  | append_singleton before action ih =>
    rw [List.countP_append]
    cases action with
    | restart =>
      rw [readsSince_restart]
      exact Nat.zero_le _
    | read request =>
      rw [readsSince_read]
      simp only [List.countP_singleton]
      split_ifs <;> omega

theorem fewReads_of_countP {limit : Nat} {actions : List Action}
    (few : (actions.countP fun action => action matches .read _) < limit) : FewReads limit actions := by
  intro before start
  have fewer := start.sublist.countP_le (p := fun action => action matches .read _)
  exact (readsSince_le _ before).trans_lt (fewer.trans_lt few)

/-- A block has counted the reads since the last restart, or has not been read since. -/
inductive Tracks (before : List Action) (live : LazyBlock) : Prop where
  | current (version : live.ver.toNat = restarts before)
      (count : live.cnt = readsSince (·.addr = live.block.addr) before)
  | stale (version : live.ver.toNat < restarts before)
      (unread : readsSince (·.addr = live.block.addr) before = 0)

structure LazyInv (code : LazyCode) (before : List Action) (model : LazyModel) : Prop where
  limit : model.limit = code.limit
  probeLen : model.probeLen = readsSince (fun _ => true) before
  restartCnt : model.restartCnt.toNat = restarts before
  blocks : model.blocks.map LazyBlock.block = code.blocks.map fun block => generateCodeBlock block.1 block.2
  tracks : ∀ live ∈ model.blocks, Tracks before live

theorem lazyInv_fresh (code : LazyCode) : LazyInv code [] (LazyModel.fresh code) where
  limit := rfl
  probeLen := rfl
  restartCnt := rfl
  blocks := by simp [LazyModel.fresh]
  tracks := by
    intro live member
    obtain ⟨block, -, rfl⟩ := List.mem_map.mp member
    exact .current rfl rfl

theorem LazyInv.restart {code : LazyCode} {before : List Action} {model : LazyModel} (inv : LazyInv code before model)
    (bound : restarts before + 1 < 2 ^ 64) : LazyInv code (before ++ [.restart]) model.restartDevice where
  limit := inv.limit
  probeLen := readsSince_restart.symm
  restartCnt := by
    have plus : (model.restartCnt + 1).toNat = (model.restartCnt.toNat + 1) % 2 ^ 64 := UInt64.toNat_add _ _
    rw [restarts_restart, LazyModel.restartDevice, plus, inv.restartCnt, Nat.mod_eq_of_lt bound]
  blocks := inv.blocks
  tracks := by
    intro live member
    refine .stale ?_ readsSince_restart
    rw [restarts_restart]
    cases inv.tracks live member with
    | current version _ => omega
    | stale version _ => omega

/-- The block that is read starts over exactly if it has not been read since the last restart. -/
theorem Tracks.checkReset {before : List Action} {live : LazyBlock} {restartCnt : UInt64} (tracks : Tracks before live)
    (restarted : restartCnt.toNat = restarts before) :
    (live.checkReset restartCnt).ver.toNat = restarts before ∧
      (live.checkReset restartCnt).cnt = readsSince (·.addr = live.block.addr) before ∧
        (live.checkReset restartCnt).block = live.block := by
  unfold LazyBlock.checkReset
  cases tracks with
  | current version count =>
    have seen : ¬ restartCnt > live.ver := by
      rw [gt_iff_lt, UInt64.lt_iff_toNat_lt]
      omega
    rw [if_neg seen]
    exact ⟨version, count, rfl⟩
  | stale version unread =>
    have unseen : restartCnt > live.ver := by
      rw [gt_iff_lt, UInt64.lt_iff_toNat_lt]
      omega
    rw [if_pos unseen]
    exact ⟨restarted, unread.symm, rfl⟩

theorem Tracks.skipped {before : List Action} {live : LazyBlock} {request : LazyRequest}
    (other : live.block.addr ≠ request.addr) (tracks : Tracks before live) : Tracks (before ++ [.read request]) live := by
  have same : readsSince (·.addr = live.block.addr) (before ++ [.read request]) =
      readsSince (·.addr = live.block.addr) before := by
    rw [readsSince_read, if_neg (by simpa using other.symm)]
  cases tracks with
  | current version count => exact .current (by rw [restarts_read, version]) (by rw [same, count])
  | stale version unread => exact .stale (by rwa [restarts_read]) (by rw [same, unread])

section

variable {before : List Action} {restartCnt : UInt64} (request : LazyRequest)
  (restarted : restartCnt.toNat = restarts before)

include restarted

theorem Tracks.body {live : LazyBlock} (selected : live.block.addr = request.addr) (tracks : Tracks before live) :
    Tracks (before ++ [.read request]) (live.body restartCnt request.dest).1 ∧
      (live.body restartCnt request.dest).1.block = live.block ∧
        (live.body restartCnt request.dest).2 =
          runAssigns live.block.assigns (readsSince (·.addr = request.addr) before) request.dest := by
  obtain ⟨version, count, block⟩ := tracks.checkReset restarted
  refine ⟨.current (by rw [restarts_read]; exact version) ?_, block, ?_⟩
  · show (live.checkReset restartCnt).cnt + 1 = _
    rw [show (live.body restartCnt request.dest).1.block = live.block from block, readsSince_read,
      if_pos (by simp [selected]), count]
  · show runAssigns (live.checkReset restartCnt).block.assigns (live.checkReset restartCnt).cnt request.dest = _
    rw [block, count, selected]

/-- A read keeps what the blocks track, and stores the entry with the number of the read. -/
theorem lazySwitch_spec (hasDefault : Bool) {blocks : List LazyBlock} (tracks : ∀ live ∈ blocks, Tracks before live)
    (nodup : (blocks.map (·.block.addr)).Nodup) :
    (lazySwitch hasDefault restartCnt request blocks).1.map LazyBlock.block = blocks.map LazyBlock.block ∧
      (∀ live ∈ (lazySwitch hasDefault restartCnt request blocks).1, Tracks (before ++ [.read request]) live) ∧
        ∀ live ∈ blocks, live.block.addr = request.addr →
          (lazySwitch hasDefault restartCnt request blocks).2 =
            runAssigns live.block.assigns (readsSince (·.addr = request.addr) before) request.dest := by
  induction blocks with
  | nil => exact ⟨rfl, fun _ member => absurd member List.not_mem_nil, fun _ member => absurd member List.not_mem_nil⟩
  | cons live rest ih =>
    obtain ⟨here, later⟩ := List.forall_mem_cons.mp tracks
    obtain ⟨fresh, nodup⟩ := List.nodup_cons.mp nodup
    unfold lazySwitch
    split_ifs with selected
    · obtain ⟨tracked, block, stored⟩ := here.body request restarted selected
      have others : ∀ other ∈ rest, other.block.addr ≠ request.addr := fun other member same =>
        fresh (List.mem_map.mpr ⟨other, member, same.trans selected.symm⟩)
      refine ⟨by rw [List.map_cons, List.map_cons, block], ?_, ?_⟩
      · exact List.forall_mem_cons.mpr ⟨tracked, fun other member => (later other member).skipped (others other member)⟩
      · intro other member same
        cases List.mem_cons.mp member with
        | inl first => rw [first, stored]
        | inr further => exact absurd same (others other further)
    · obtain ⟨blocks, tracked, stored⟩ := ih later nodup
      refine ⟨by rw [List.map_cons, List.map_cons, blocks], ?_, ?_⟩
      · exact List.forall_mem_cons.mpr ⟨here.skipped selected, tracked⟩
      · intro other member same
        cases List.mem_cons.mp member with
        | inl first => exact absurd (first ▸ same) selected
        | inr further => exact stored other further same

end

theorem LazyInv.nodup {code : LazyCode} {before : List Action} {model : LazyModel} (inv : LazyInv code before model) :
    (model.blocks.map (·.block.addr)).Nodup := by
  have labels : model.blocks.map (·.block.addr) = code.blocks.map Prod.fst := by
    have := congrArg (List.map CaseBlock.addr) inv.blocks
    simpa [Function.comp_def, generateCodeBlock] using this
  rw [labels]
  exact code.nodup

/-- During probing. -/
theorem LazyInv.read_eq {code : LazyCode} {before : List Action} {model : LazyModel} (inv : LazyInv code before model)
    (probing : readsSince (fun _ => true) before ≤ code.limit) (request : LazyRequest) :
    model.read request =
      (⟨request.size, (lazySwitch model.hasDefault model.restartCnt request model.blocks).2⟩,
        { model with
          blocks := (lazySwitch model.hasDefault model.restartCnt request model.blocks).1
          probeLen := model.probeLen + 1 }) := by
  rw [LazyModel.read, if_neg (by rw [inv.probeLen, inv.limit]; omega)]

theorem LazyInv.read {code : LazyCode} {before : List Action} {model : LazyModel} (inv : LazyInv code before model)
    (probing : readsSince (fun _ => true) before ≤ code.limit) (request : LazyRequest) :
    LazyInv code (before ++ [.read request]) (model.read request).2 := by
  obtain ⟨blocks, tracks, -⟩ := lazySwitch_spec request inv.restartCnt model.hasDefault inv.tracks inv.nodup
  rw [inv.read_eq probing]
  exact {
    limit := inv.limit
    probeLen := by
      rw [readsSince_read, if_pos rfl]
      exact congrArg (· + 1) inv.probeLen
    restartCnt := by rw [restarts_read]; exact inv.restartCnt
    blocks := blocks.trans inv.blocks
    tracks }

theorem lazyInv_after (code : LazyCode) {actions : List Action} (few : FewReads code.limit actions)
    (bound : restarts actions < 2 ^ 64) : LazyInv code actions ((LazyModel.fresh code).after actions) := by
  induction actions using List.reverseRecOn with
  | nil => exact lazyInv_fresh code
  | append_singleton before action ih =>
    have earlier : FewReads code.limit before := fun start shorter => few start (shorter.trans (List.prefix_append _ _))
    rw [LazyModel.after_append]
    cases action with
    | restart =>
      rw [restarts_restart] at bound
      exact (ih earlier (by omega)).restart bound
    | read request =>
      rw [restarts_read] at bound
      exact (ih earlier bound).read (earlier before List.prefix_rfl).le request

/-- Each read is answered with the value recorded for it, as long as there are fewer restarts than
    `restart_cnt` can count. -/
theorem lazyRestart_exact (code : LazyCode) (actions : List Action) (few : FewReads code.limit actions)
    (bound : restarts actions < 2 ^ 64) : code.Exact actions := by
  intro before request start values entry block recorded
  have earlier : before <+: actions := (List.prefix_append _ _).trans start
  have fewer : restarts before ≤ restarts actions := earlier.sublist.countP_le
  have inv := lazyInv_after code (fun other shorter => few other (shorter.trans earlier))
    (fewer.trans_lt bound)
  obtain ⟨live, member, same⟩ : ∃ live ∈ ((LazyModel.fresh code).after before).blocks,
      live.block = generateCodeBlock request.addr values := by
    have listed : generateCodeBlock request.addr values ∈
        ((LazyModel.fresh code).after before).blocks.map LazyBlock.block := by
      rw [inv.blocks]
      exact List.mem_map.mpr ⟨_, block, rfl⟩
    exact List.mem_map.mp listed
  obtain ⟨-, -, stored⟩ := lazySwitch_spec request inv.restartCnt
    ((LazyModel.fresh code).after before).hasDefault inv.tracks inv.nodup
  rw [inv.read_eq (few before earlier).le, stored live member (by rw [same]; rfl), same, generateCodeBlock,
    runAssigns_generateAssigns, if_pos (Nat.zero_le _), Nat.sub_zero, recorded]

/-- The block of `HWModel_sis190` for the address 0x3c. -/
def sis190Block : LazyCode where
  limit := 164
  blocks := [(0x3c, [(4, 0x0), (4, 0xfffeffff)])]
  nodup := List.nodup_singleton _
  hasDefault := true

def sis190Read : LazyRequest := ⟨⟨0x3c, 4, fun _ => 0⟩, 0⟩

theorem lazyRestart_exact_sis190 : sis190Block.Exact [.read sis190Read, .restart, .restart, .read sis190Read] :=
  lazyRestart_exact sis190Block _ (fewReads_of_countP (by decide)) (by decide)

theorem after_replicate_restart (model : LazyModel) (n : Nat) :
    model.after (List.replicate (n + 1) .restart) =
      { model with probeLen := 0, restartCnt := model.restartCnt + UInt64.ofNat (n + 1) } := by
  induction n with
  | zero => rfl
  | succ n ih =>
    rw [List.replicate_succ', LazyModel.after_append, ih, UInt64.ofNat_add (n + 1) 1, ← UInt64.add_assoc]
    rfl

/-- Two reads with restarts between them, at least one. -/
def restartedBetween (n : Nat) : List Action := .read sis190Read :: List.replicate (n + 1) .restart ++ [.read sis190Read]

theorem fewReads_restartedBetween (n : Nat) : FewReads 164 (restartedBetween n) := by
  refine fewReads_of_countP ?_
  simp [restartedBetween, List.countP_replicate]

/-- After as many restarts as bring the counter back to zero, the block goes on where it was. -/
theorem not_exact_of_wraps {n : Nat} (wraps : UInt64.ofNat (n + 1) = 0) : ¬ sis190Block.Exact (restartedBetween n) := by
  intro exact
  have unread : readsSince (·.addr = sis190Read.addr) (.read sis190Read :: List.replicate (n + 1) .restart) = 0 := by
    rw [List.replicate_succ', ← List.cons_append, readsSince_restart]
  have answered := exact (.read sis190Read :: List.replicate (n + 1) .restart) sis190Read List.prefix_rfl
    [(4, 0x0), (4, 0xfffeffff)] (4, 0x0) List.mem_cons_self (by rw [unread]; rfl)
  have state : (LazyModel.fresh sis190Block).after (.read sis190Read :: List.replicate (n + 1) .restart) =
      { limit := 164, hasDefault := true, probeLen := 0, restartCnt := 0
        blocks := [⟨generateCodeBlock 0x3c [(4, 0x0), (4, 0xfffeffff)], 1, 0⟩] } := by
    show ((LazyModel.fresh sis190Block).step (.read sis190Read)).after (List.replicate (n + 1) .restart) = _
    rw [after_replicate_restart, wraps]
    rfl
  rw [state] at answered
  have first := congrArg (fun answer => answer.dest 0) answered
  exact absurd first (by decide)

/-- `2 ^ 64` restarts. -/
theorem not_exact_wrapped :
    FewReads 164 (restartedBetween 18446744073709551615) ∧
      ¬ sis190Block.Exact (restartedBetween 18446744073709551615) :=
  ⟨fewReads_restartedBetween _, not_exact_of_wraps (by decide)⟩

end DevFuzz.Probe
