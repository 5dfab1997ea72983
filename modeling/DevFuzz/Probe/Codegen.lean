import DevFuzz.Probe.SolutionLog

/-! # `codegen`: from the solution log to a device model

`tools/generate_probe_model.py` in three parts: the loop over the lines of
`result.txt` that fills `reg_model`, the emission of one `case` block per
address, and the `PROBE_LEN` of the template.
-/

namespace DevFuzz.Probe

open DevFuzz.Lib.Bytes DevFuzz.Lib.Strings

/-! ## The dictionary -/

/-- `reg_model`: a dictionary in insertion order, from an address to its `(size, value)` list. -/
abbrev RegModel (κ : Type) := List (κ × List (Int × Int))

/-- `if addr not in reg_model: reg_model[addr] = []`, then `reg_model[addr].append(entry)`. -/
def RegModel.record {κ : Type} [DecidableEq κ] (addr : κ) (entry : Int × Int) :
    RegModel κ → RegModel κ
  | [] => [(addr, [entry])]
  | (key, entries) :: rest =>
    if key = addr then (key, entries ++ [entry]) :: rest
    else (key, entries) :: RegModel.record addr entry rest

section

variable {κ : Type} [DecidableEq κ]

theorem RegModel.record_inj {addr : κ} {entry entry' : Int × Int}
    {model : RegModel κ} (equal : model.record addr entry = model.record addr entry') :
    entry = entry' := by
  induction model with
  | nil => simpa [RegModel.record] using equal
  | cons head rest ih =>
    obtain ⟨key, entries⟩ := head
    by_cases same : key = addr
    · simpa [RegModel.record, same] using equal
    · exact ih (by simpa [RegModel.record, same] using equal)

theorem mem_keys_record (model : RegModel κ) (addr addr' : κ) (entry : Int × Int) :
    addr' ∈ (model.record addr entry).map Prod.fst ↔ addr' = addr ∨ addr' ∈ model.map Prod.fst := by
  induction model with
  | nil => simp [RegModel.record]
  | cons head rest ih =>
    obtain ⟨key, entries⟩ := head
    by_cases same : key = addr
    · simp only [RegModel.record, same, if_true, List.map_cons, List.mem_cons]
      tauto
    · simp only [RegModel.record, same, if_false, List.map_cons, List.mem_cons, ih]
      tauto

theorem nodup_record {model : RegModel κ} (nodup : (model.map Prod.fst).Nodup) (addr : κ)
    (entry : Int × Int) : ((model.record addr entry).map Prod.fst).Nodup := by
  induction model with
  | nil => simp [RegModel.record]
  | cons head rest ih =>
    obtain ⟨key, entries⟩ := head
    rw [List.map_cons, List.nodup_cons] at nodup
    by_cases same : key = addr
    · simpa [RegModel.record, same] using nodup
    · simp only [RegModel.record, same, if_false, List.map_cons, List.nodup_cons, mem_keys_record]
      exact ⟨by simpa [same] using nodup.1, ih nodup.2⟩

/-- `reg_model.get(addr, [])` -/
def RegModel.get (model : RegModel κ) (addr : κ) : List (Int × Int) :=
  ((model.find? fun entry => entry.1 = addr).map Prod.snd).getD []

theorem RegModel.get_record (model : RegModel κ) (addr key : κ) (entry : Int × Int) :
    (model.record addr entry).get key = if key = addr then model.get key ++ [entry] else model.get key := by
  induction model with
  | nil =>
    by_cases same : addr = key
    · simp [RegModel.record, RegModel.get, same]
    · simp [RegModel.record, RegModel.get, same, Ne.symm same]
  | cons head rest ih =>
    obtain ⟨key', entries⟩ := head
    unfold RegModel.get at ih ⊢
    by_cases same : key' = addr
    · -- the list of this address grows
      subst same
      by_cases here : key' = key
      · simp [RegModel.record, here]
      · simp [RegModel.record, here, Ne.symm here]
    · by_cases here : key' = key
      · subst here
        simp [RegModel.record, same]
      · simpa [RegModel.record, same, here] using ih

end

/-! ## Reading the log -/

/-- The exceptions a malformed line raises. -/
inductive PyError where
  | indexError
  | valueError
  deriving DecidableEq, Repr

/-- The variables of the loop over `Lines`. -/
structure Parse where
  addr : Text
  size : Int
  data : List Int
  regModel : RegModel Text
  deriving DecidableEq, Repr

/-- `for d in data: adata = adata << 8; adata += d` -/
def adata (data : List Int) : Int := data.foldl (fun adata d => adata * 2 ^ 8 + d) 0

/-- A name line: the address stands after `___`, the size two fields later. -/
def codegenName (s : Parse) (line : Text) : Except PyError Parse :=
  match split "___".toList line with
  | _ :: fields :: _ =>
    match split "_".toList fields with
    | addr :: _ :: size :: _ =>
      match pyInt 10 size with
      | some size => .ok { s with addr := addr, size := size }
      | none => .error .valueError
    | _ => .error .indexError
  | _ => .error .indexError

/-- A byte line of the record under way. -/
def codegenByte (s : Parse) (line : Text) : Except PyError Parse :=
  match split " ".toList line with
  | _ :: word :: _ =>
    match pyInt 16 word with
    | some byte =>
      let data := s.data ++ [byte]
      -- `addr` keeps its value when the record is complete
      if (data.length : Int) = s.size then
        .ok { s with
          size := 0, data := [], regModel := s.regModel.record s.addr (s.size, adata data) }
      else .ok { s with data := data }
    | none => .error .valueError
  | _ => .error .indexError

/-- One pass of `for line in Lines`. -/
def codegenLine (s : Parse) (line : Text) : Except PyError Parse :=
  let line := strip line
  -- `re.search("mmio", line)`
  if search "mmio".toList line then codegenName s line
  else if s.size ≠ 0 then codegenByte s line
  else .ok s

/-- The loop variables between two records. -/
def Parse.between (addr : Text) (model : RegModel Text) : Parse :=
  { addr := addr, size := 0, data := [], regModel := model }

/-- `reg_model` after the loop over all lines of `result.txt`. -/
def collect (lines : List Text) : Except PyError (RegModel Text) :=
  (lines.foldlM codegenLine (Parse.between [] [])).map Parse.regModel

/-! ## Emitting the model -/

/-- `if (cnt == k) *((uintN_t *)dest) = value;` -/
structure Assign where
  cnt : Nat
  width : Nat
  value : Int
  deriving DecidableEq, Repr

/-- `case(addr):{ static int cnt; ... cnt++;}` -/
structure CaseBlock (κ : Type) where
  addr : κ
  assigns : List Assign
  deriving DecidableEq, Repr

/-- The three `if size==` tests; any other size prints nothing but still counts. -/
def generateAssign (cnt : Nat) (size value : Int) : List Assign :=
  if size = 1 then [⟨cnt, 1, value⟩]
  else if size = 2 then [⟨cnt, 2, value⟩]
  else if size = 4 then [⟨cnt, 4, value⟩]
  else []

/-- `for v in values`, from the entry with number `cnt` on. -/
def generateAssigns : Nat → List (Int × Int) → List Assign
  | _, [] => []
  | cnt, (size, value) :: values => generateAssign cnt size value ++ generateAssigns (cnt + 1) values

def generateCodeBlock {κ : Type} (addr : κ) (values : List (Int × Int)) : CaseBlock κ :=
  ⟨addr, generateAssigns 0 values⟩

/-- What the template is instantiated with: `<PROBE_LEN>` and `<SM>`. -/
structure ProbeModel (κ : Type) where
  probeLen : Nat
  blocks : List (CaseBlock κ)
  deriving DecidableEq, Repr

def codegen {κ : Type} (regModel : RegModel κ) : ProbeModel κ where
  probeLen := (regModel.map fun entry => entry.2.length).sum
  blocks := regModel.map fun entry => generateCodeBlock entry.1 entry.2

end DevFuzz.Probe
