import DevFuzz.Probe.Codegen

/-! # The emitted device model

The C++ class that `codegen` writes: its state is the member `probe_len` and one
function-static counter per `case` block.  No block ends in `break`, so control
passes from the selected block through every block below it (`fallThrough`).

`runAssigns_generateAssigns` says what the body of one block does to `dest`;
`switch_eq_fallThrough` says which counters one `read` advances.
-/

namespace DevFuzz.Probe

open DevFuzz.Lib.Bytes

/-! ## State and execution -/

/-- A `case` block with the current value of its `static int cnt`.  A counter never exceeds
    the number of reads made, so it is a natural number here. -/
structure LiveBlock where
  block : CaseBlock UInt64
  cnt : Nat

/-- A generated model while it runs. -/
structure HWModel where
  /-- the constant `<PROBE_LEN>` -/
  limit : Nat
  /-- the member `probe_len` -/
  probeLen : Nat
  blocks : List LiveBlock

/-- A freshly constructed model, all static counters still zero. -/
def HWModel.fresh (code : ProbeModel UInt64) : HWModel where
  limit := code.probeLen
  probeLen := 0
  blocks := code.blocks.map fun block => ⟨block, 0⟩

/-- `virtual void restart_device() final { probe_len = 0; }` -/
def HWModel.restartDevice (model : HWModel) : HWModel := { model with probeLen := 0 }

/-- `if (cnt == k) *((uintN_t *)dest) = value;` -/
def Assign.run (cnt : Nat) (dest : Memory) (assign : Assign) : Memory :=
  if assign.cnt = cnt then
    storeLE dest 0 assign.width (assign.value % 256 ^ assign.width).toNat
  else dest

def runAssigns (assigns : List Assign) (cnt : Nat) (dest : Memory) : Memory :=
  assigns.foldl (Assign.run cnt) dest

/-- The body of one block, up to and including `cnt++`. -/
def LiveBlock.body (live : LiveBlock) (dest : Memory) : LiveBlock × Memory :=
  ({ live with cnt := live.cnt + 1 }, runAssigns live.block.assigns live.cnt dest)

/-- From one block to the end of the `switch`. -/
def fallThrough : List LiveBlock → Memory → List LiveBlock × Memory
  | [], dest => ([], dest)
  | live :: rest, dest =>
    -- no `break` is printed after a block
    let (live', dest') := live.body dest
    let (rest', dest'') := fallThrough rest dest'
    (live' :: rest', dest'')

/-- `switch(addr) { case ... }` -/
def switch (addr : UInt64) : List LiveBlock → Memory → List LiveBlock × Memory
  | [], dest => ([], dest)
  | live :: rest, dest =>
    if live.block.addr = addr then fallThrough (live :: rest) dest
    else
      let (rest', dest') := switch addr rest dest
      (live :: rest', dest')

/-- What a call of `read` returns and leaves in `dest`. -/
structure Answer where
  ret : Nat
  dest : Memory

/-- `virtual int read(uint8_t *dest, uint64_t addr, size_t size)` -/
def HWModel.read (model : HWModel) (dest : Memory) (addr : UInt64) (size : Nat) :
    Answer × HWModel :=
  if model.probeLen > model.limit then (⟨0, dest⟩, model)
  else
    let (blocks, dest) := switch addr model.blocks dest
    (⟨size, dest⟩, { model with blocks := blocks, probeLen := model.probeLen + 1 })

/-- A call of `read`: the arguments, with what `dest` holds before. -/
structure Request where
  addr : UInt64
  size : Nat
  dest : Memory

/-- The answers to a sequence of reads, and the model after it. -/
def HWModel.reads : HWModel → List Request → List Answer × HWModel
  | model, [] => ([], model)
  | model, request :: requests =>
    let (answer, model) := model.read request.dest request.addr request.size
    let (answers, model) := model.reads requests
    (answer :: answers, model)

def HWModel.after (model : HWModel) (requests : List Request) : HWModel :=
  (model.reads requests).2

@[simp] theorem HWModel.after_nil (model : HWModel) : model.after [] = model := rfl

@[simp] theorem HWModel.after_cons (model : HWModel) (request : Request)
    (requests : List Request) :
    model.after (request :: requests) =
      ((model.read request.dest request.addr request.size).2).after requests := rfl

theorem HWModel.after_append (model : HWModel) (first second : List Request) :
    model.after (first ++ second) = (model.after first).after second := by
  induction first generalizing model with
  | nil => rfl
  | cons request first ih => simp only [List.cons_append, HWModel.after_cons, ih]

/-- The block of an address, if the model has one. -/
def HWModel.block? (model : HWModel) (addr : UInt64) : Option LiveBlock :=
  model.blocks.find? fun live => live.block.addr = addr

/-! ## What a block writes -/

/-- The effect of the entry a counter selects: one store of 1, 2 or 4 bytes, or nothing. -/
def storeEntry (dest : Memory) : Option (Int × Int) → Memory
  | some (size, value) =>
    if size = 1 ∨ size = 2 ∨ size = 4 then
      storeLE dest 0 size.toNat (value % 256 ^ size.toNat).toNat
    else dest
  | none => dest

theorem runAssigns_append (left right : List Assign) (cnt : Nat) (dest : Memory) :
    runAssigns (left ++ right) cnt dest = runAssigns right cnt (runAssigns left cnt dest) := by
  simp [runAssigns]

theorem runAssigns_generateAssign_of_ne {k cnt : Nat} (other : k ≠ cnt) (size value : Int)
    (dest : Memory) : runAssigns (generateAssign k size value) cnt dest = dest := by
  unfold generateAssign
  split_ifs <;> simp [runAssigns, Assign.run, other]

theorem runAssigns_generateAssign_self (cnt : Nat) (size value : Int) (dest : Memory) :
    runAssigns (generateAssign cnt size value) cnt dest = storeEntry dest (some (size, value)) := by
  unfold generateAssign
  split_ifs with one two four
  · simp [one, runAssigns, Assign.run, storeEntry]
  · simp [two, runAssigns, Assign.run, storeEntry]
  · simp [four, runAssigns, Assign.run, storeEntry]
  · simp [one, two, four, runAssigns, storeEntry]

/-- The assignments of a block store the entry its counter points at, and nothing else. -/
theorem runAssigns_generateAssigns (values : List (Int × Int)) (k cnt : Nat) (dest : Memory) :
    runAssigns (generateAssigns k values) cnt dest =
      if k ≤ cnt then storeEntry dest values[cnt - k]? else dest := by
  induction values generalizing k dest with
  | nil => simp [generateAssigns, runAssigns, storeEntry]
  | cons entry values ih =>
    obtain ⟨size, value⟩ := entry
    rw [generateAssigns, runAssigns_append, ih]
    -- the counter points in front of the entries, at the first of them or behind it
    rcases Nat.lt_trichotomy cnt k with below | here | above
    · rw [if_neg (by omega), if_neg (by omega), runAssigns_generateAssign_of_ne (by omega)]
    · subst here
      rw [if_neg (by omega), if_pos (le_refl _), Nat.sub_self, List.getElem?_cons_zero,
        runAssigns_generateAssign_self]
    · rw [if_pos (by omega), if_pos (by omega), runAssigns_generateAssign_of_ne (by omega),
        show cnt - k = (cnt - (k + 1)) + 1 by omega, List.getElem?_cons_succ]

theorem body_generateCodeBlock (addr : UInt64) (values : List (Int × Int)) (cnt : Nat)
    (dest : Memory) :
    (LiveBlock.mk (generateCodeBlock addr values) cnt).body dest =
      (⟨generateCodeBlock addr values, cnt + 1⟩, storeEntry dest values[cnt]?) := by
  simp [LiveBlock.body, generateCodeBlock, runAssigns_generateAssigns]

/-! ## What a read advances -/

theorem fallThrough_blocks (blocks : List LiveBlock) (dest : Memory) :
    (fallThrough blocks dest).1 = blocks.map fun live => { live with cnt := live.cnt + 1 } := by
  induction blocks generalizing dest with
  | nil => rfl
  | cons live rest ih => simp [fallThrough, LiveBlock.body, ih]

/-- A switch runs the block of the address and every block below it, and no other. -/
theorem switch_eq_fallThrough {addr : UInt64} {above : List LiveBlock} {live : LiveBlock}
    {below : List LiveBlock} (dest : Memory) (first : ∀ other ∈ above, other.block.addr ≠ addr)
    (selected : live.block.addr = addr) :
    switch addr (above ++ live :: below) dest =
      (above ++ (fallThrough (live :: below) dest).1, (fallThrough (live :: below) dest).2) := by
  induction above with
  | nil => simp [switch, selected]
  | cons other above ih =>
    have different : ¬ other.block.addr = addr := first other List.mem_cons_self
    have rest := ih fun other member => first other (List.mem_cons_of_mem _ member)
    simp [switch, different, rest]

theorem HWModel.read_of_done {model : HWModel} {dest : Memory} {addr : UInt64} {size : Nat}
    (done : model.probeLen > model.limit) : model.read dest addr size = (⟨0, dest⟩, model) := by
  simp [HWModel.read, done]

theorem HWModel.read_of_probing {model : HWModel} {dest : Memory} {addr : UInt64} {size : Nat}
    (probing : model.probeLen ≤ model.limit) :
    model.read dest addr size =
      (⟨size, (switch addr model.blocks dest).2⟩,
        { model with
          blocks := (switch addr model.blocks dest).1, probeLen := model.probeLen + 1 }) := by
  simp [HWModel.read, Nat.not_lt.mpr probing]

end DevFuzz.Probe
