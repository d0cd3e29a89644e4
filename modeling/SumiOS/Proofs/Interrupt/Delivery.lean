import Mathlib.Tactic.IntervalCases
import SumiOS.Interrupt
import SumiOS.Proofs.Interrupt.Memcpy

/-!
# `SumiOS.Proofs.Interrupt.Delivery`: where an interrupt goes

The abstract side is the processor: how it reads a segment descriptor and a gate
(`readSegment`, `readGate`), and what it does with a vector in ring 0 (`deliver`). It checks
the limits of both tables, the type of the gate, and the segment that the gate selects.

`readSegment_descriptorInit` and `readGate_kernelGateInit` say that the processor reads what
the macros were given. `GateTables` is what holds of the memory while handlers are set: every
gate is that of the last call for its vector. So a vector goes to the handler that was set
last (`deliver_calls`), and after `arch_init` the exceptions go to their handlers
(`deliver_archInit`).

Both table registers get the size of a table, and not its last byte. That does no harm
here: no descriptor or gate ends at the byte behind the table.
-/

set_option autoImplicit false

namespace SumiOS

open Lib

/-! ### What the processor reads -/

/-- A segment descriptor. -/
structure Segment where
  base : Nat
  limit : Nat
  type : Nat
  s : Nat
  dpl : Nat
  present : Nat
  avl : Nat
  long : Nat
  db : Nat
  granularity : Nat
deriving DecidableEq

def readSegment (n : Nat) : Segment where
  base := slice 16 16 n + 2 ^ 16 * slice 32 8 n + 2 ^ 24 * slice 56 8 n
  limit := slice 0 16 n + 2 ^ 16 * slice 48 4 n
  type := slice 40 4 n
  s := slice 44 1 n
  dpl := slice 45 2 n
  present := slice 47 1 n
  avl := slice 52 1 n
  long := slice 53 1 n
  db := slice 54 1 n
  granularity := slice 55 1 n

/-- A gate of the interrupt descriptor table. -/
structure Gate where
  offset : Nat
  selector : Nat
  ist : Nat
  type : Nat
  s : Nat
  dpl : Nat
  present : Nat
deriving DecidableEq

def readGate (n : Nat) : Gate where
  offset := slice 0 16 n + 2 ^ 16 * slice 48 16 n + 2 ^ 32 * slice 64 32 n
  selector := slice 16 16 n
  ist := slice 32 3 n
  type := slice 40 4 n
  s := slice 44 1 n
  dpl := slice 45 2 n
  present := slice 47 1 n

/-- Why the processor does not enter a handler. -/
inductive CpuFault
  | generalProtection
  | notPresent
  | invalidTss
deriving DecidableEq

/-- How the processor enters a handler: its address, the selector of its code segment, and
whether interrupts are off. -/
structure Entry where
  rip : Word
  cs : Nat
  interruptsOff : Bool
deriving DecidableEq

/-- The code segment of a handler. It has to be one for 64 bits and for ring 0. There is no
local table, and the first entry of the global one is not used. -/
def codeSegment (c : Cpu) (selector : Nat) : Except CpuFault Unit :=
  let index := selector / 8
  if index = 0 ∨ selector / 4 % 2 = 1 then .error .generalProtection
  else if index * 8 + 7 > c.gdtr.size.toNat then .error .generalProtection
  else
    let seg := readSegment (c.mem.readNum (c.gdtr.address + BitVec.ofNat 64 (index * 8)) 8)
    if seg.s = 0 ∨ seg.type < 8 ∨ seg.dpl > 0 ∨ seg.long = 0 ∨ seg.db = 1 then
      .error .generalProtection
    else if seg.present = 0 then .error .notPresent
    else .ok ()

/-- What the processor does with a vector while it is in ring 0. A stack of its own for the
handler would have to be in a task state, and there is none. -/
def deliver (c : Cpu) (vector : BitVec 8) : Except CpuFault Entry :=
  if vector.toNat * 16 + 15 > c.idtr.size.toNat then .error .generalProtection
  else
    let gate := readGate
      (c.mem.readNum (c.idtr.address + BitVec.ofNat 64 (vector.toNat * 16)) 16)
    if gate.s = 1 ∨ gate.type ≠ 14 ∧ gate.type ≠ 15 then .error .generalProtection
    else if gate.present = 0 then .error .notPresent
    else
      (codeSegment c gate.selector).bind fun _ =>
        if gate.ist ≠ 0 then .error .invalidTss
        else .ok ⟨BitVec.ofNat 64 gate.offset, gate.selector, gate.type = 14⟩

/-! ### What the macros build -/

section

variable {k : Nat}

/-- The low bits of a word, as a field takes them. -/
theorem toNat_and_mod {x mask : BitVec 32} (hmask : mask.toNat = 2 ^ k - 1) :
    (x &&& mask).toNat % 2 ^ k = x.toNat % 2 ^ k := by
  rw [BitVec.toNat_and, hmask, Nat.and_two_pow_sub_one_eq_mod, Nat.mod_mod]

/-- Shifting right by `k` divides by `2 ^ k`, the way in which the halves of a handler's address
are cut out. -/
theorem toNat_ushiftRight_eq_div {w : Nat} (x : BitVec w) : (x >>> k).toNat = x.toNat / 2 ^ k := by
  rw [BitVec.toNat_ushiftRight, Nat.shiftRight_eq_div_pow]

end

/-- The processor reads from a descriptor the base, the low 20 bits of the limit, and the
flags that the macro was given. -/
theorem readSegment_descriptorInit (base limit flags : BitVec 32) :
    readSegment (pack (descriptorInit base limit flags).fields) =
      { base := base.toNat, limit := limit.toNat % 2 ^ 20, type := flags.toNat % 2 ^ 4,
        s := flags.toNat / 2 ^ 4 % 2, dpl := flags.toNat / 2 ^ 5 % 2 ^ 2,
        present := flags.toNat / 2 ^ 7 % 2, avl := flags.toNat / 2 ^ 12 % 2,
        long := flags.toNat / 2 ^ 13 % 2, db := flags.toNat / 2 ^ 14 % 2,
        granularity := flags.toNat / 2 ^ 15 % 2 } := by
  have hbase : base.toNat % 2 ^ 16 + 2 ^ 16 * (base.toNat / 2 ^ 16 % 2 ^ 8)
      + 2 ^ 24 * (base.toNat / 2 ^ 24 % 2 ^ 8) = base.toNat := by
    have hlt := base.isLt
    omega
  have hlimit : limit.toNat % 2 ^ 16 + 2 ^ 16 * (limit.toNat / 2 ^ 16 % 2 ^ 4)
      = limit.toNat % 2 ^ 20 := by
    omega
  simp (disch := omega) only [readSegment, descriptorInit, Descriptor.fields, slice_tail,
    Nat.reduceSub, slice_head]
  simp (disch := decide) only [toNat_and_mod, toNat_ushiftRight_eq_div, BitVec.toNat_setWidth,
    Nat.mod_mod, hbase, hlimit]
  rfl

/-- The processor reads from a gate the address of the handler and the low 16 bits of the
selector. -/
theorem readGate_kernelGateInit (type : BitVec 4) (handler : Word) (selector : BitVec 32) :
    readGate (pack (kernelGateInit type handler selector).fields) =
      { offset := handler.toNat, selector := selector.toNat % 2 ^ 16, ist := 0,
        type := type.toNat, s := 0, dpl := 0, present := 1 } := by
  have hoffset : handler.toNat % 2 ^ 16 + 2 ^ 16 * (handler.toNat / 2 ^ 16 % 2 ^ 16)
      + 2 ^ 32 * (handler.toNat / 2 ^ 32 % 2 ^ 32) = handler.toNat := by
    have hlt := handler.isLt
    omega
  have htype : type.toNat % 2 ^ 4 = type.toNat := Nat.mod_eq_of_lt type.isLt
  simp (disch := omega) only [readGate, kernelGateInit, GateDesc.fields, slice_tail,
    Nat.reduceSub, slice_head]
  simp only [toNat_ushiftRight_eq_div, BitVec.toNat_setWidth, Nat.mod_mod, hoffset, htype]
  rfl

/-! ### The tables in memory -/

/-- The tables and the local variable are apart. -/
structure Placed (sym : Symbols) : Prop where
  idt_gdt : SepBytes sym.idt IDT_SIZE sym.gdt GDT_SIZE
  idt_desc : SepBytes sym.idt IDT_SIZE sym.desc GATE_DESC_SIZE
  gdt_desc : SepBytes sym.gdt GDT_SIZE sym.desc GATE_DESC_SIZE

/-- The gate of a vector. -/
def gateAt (sym : Symbols) (m : Mem) (v : Nat) : Nat :=
  m.readNum (sym.idt + BitVec.ofNat 64 (v * GATE_DESC_SIZE)) GATE_DESC_SIZE

/-- An entry of the global table. -/
def segmentAt (sym : Symbols) (m : Mem) (i : Nat) : Nat :=
  m.readNum (sym.gdt + BitVec.ofNat 64 (i * DESCRIPTOR_SIZE)) DESCRIPTOR_SIZE

/-- The memory as the kernel is loaded. -/
structure Loaded (sym : Symbols) (m : Mem) : Prop where
  segments : ∀ i < GDT_ENTRIES, segmentAt sym m i = pack (gdt i).fields
  noGates : ∀ k < IDT_SIZE, m (sym.idt + BitVec.ofNat 64 k) = 0

section

variable {sym : Symbols} {m : Mem} {nr : BitVec 32} {desc : GateDesc} {v k i : Nat} {x : Word}

/-- For a vector of the table, the index arithmetic of the source gives the address of its 16-byte
gate. -/
theorem idtEntry_eq (hnr : nr.toNat < IDT_ENTRIES) :
    idtEntry sym nr = sym.idt + BitVec.ofNat 64 (nr.toNat * GATE_DESC_SIZE) := by
  have hmsb : nr.msb = false := by
    rw [BitVec.msb_eq_false_iff_two_mul_lt]
    simp only [IDT_ENTRIES] at hnr
    omega
  have hext : nr.signExtend 64 = BitVec.ofNat 64 nr.toNat := by
    rw [BitVec.signExtend_eq_setWidth_of_msb_false hmsb, BitVec.ofNat_toNat]
  rw [idtEntry, hext, ← BitVec.ofNat_mul]

/-- A gate fits in its bytes, as its fields have 128 bits together. -/
theorem pack_gate_mod (desc : GateDesc) :
    pack desc.fields % 256 ^ GATE_DESC_SIZE = pack desc.fields := by
  have hlt := pack_lt desc.fields
  have hwidth : fieldsWidth desc.fields = 128 := by simp [fieldsWidth, GateDesc.fields]
  have hbytes : 256 ^ GATE_DESC_SIZE = 2 ^ 128 := by decide
  rw [hwidth, ← hbytes] at hlt
  exact Nat.mod_eq_of_lt hlt

/-- A byte of the gate that is set, by its place in the gate. -/
theorem setGate_inside (hp : Placed sym) (hnr : nr.toNat < IDT_ENTRIES) (hk : k < GATE_DESC_SIZE) :
    setGate sym m nr desc
        (sym.idt + BitVec.ofNat 64 (nr.toNat * GATE_DESC_SIZE) + BitVec.ofNat 64 k)
      = BitVec.ofNat 8 (pack desc.fields / 256 ^ k) := by
  have hsep := hp.idt_desc
  simp only [IDT_ENTRIES, GATE_DESC_SIZE, IDT_SIZE] at *
  have hapart : SepBytes (sym.idt + BitVec.ofNat 64 (nr.toNat * 16)) 16 sym.desc 16 :=
    hsep.mono (by decide) (by decide) (by bv_omega) (by bv_omega)
  rw [setGate, idtEntry_eq hnr]
  simp only [GATE_DESC_SIZE]
  rw [memcpy_apart hapart hk (by decide), writeNum_apply hk (by decide)]

/-- A byte that is not in the gate and not in the local variable. -/
theorem setGate_outside (hnr : nr.toNat < IDT_ENTRIES)
    (hgate : GATE_DESC_SIZE
      ≤ (x - (sym.idt + BitVec.ofNat 64 (nr.toNat * GATE_DESC_SIZE))).toNat)
    (hdesc : GATE_DESC_SIZE ≤ (x - sym.desc).toNat) : setGate sym m nr desc x = m x := by
  rw [setGate, idtEntry_eq hnr, memcpy_outside hgate (by decide), Mem.writeNum,
    if_neg (Nat.not_lt.mpr hdesc)]

/-- Setting a gate changes the gate of its vector and no other, as the gates lie 16 bytes apart in
the table. -/
theorem gateAt_setGate (hp : Placed sym) (hnr : nr.toNat < IDT_ENTRIES) (hv : v < 256) :
    gateAt sym (setGate sym m nr desc) v
      = if v = nr.toNat then pack desc.fields else gateAt sym m v := by
  by_cases hsame : v = nr.toNat
  · rw [if_pos hsame, hsame, ← pack_gate_mod]
    exact readNum_eq fun k hk => setGate_inside hp hnr hk
  · rw [if_neg hsame]
    refine readNum_congr fun k hk => setGate_outside hnr ?_ ?_
    · simp only [GATE_DESC_SIZE, IDT_ENTRIES] at *
      bv_omega
    · have hfar := hp.idt_desc.symm.le_sub (by decide) (j := v * GATE_DESC_SIZE + k)
        (by simp only [IDT_SIZE, GATE_DESC_SIZE] at *; omega)
      rwa [BitVec.ofNat_add, ← BitVec.add_assoc] at hfar

/-- Setting a gate leaves the global table as it is, because the two tables do not overlap. -/
theorem segmentAt_setGate (hp : Placed sym) (hnr : nr.toNat < IDT_ENTRIES) (hi : i < GDT_ENTRIES) :
    segmentAt sym (setGate sym m nr desc) i = segmentAt sym m i := by
  refine readNum_congr fun k hk => ?_
  have hplace : i * DESCRIPTOR_SIZE + k < GDT_SIZE := by
    simp only [GDT_SIZE, GDT_ENTRIES, DESCRIPTOR_SIZE] at *
    omega
  have hgate := hp.idt_gdt.le_sub (by decide) hplace
  have hdesc := hp.gdt_desc.symm.le_sub (by decide) hplace
  rw [BitVec.ofNat_add, ← BitVec.add_assoc] at hgate hdesc
  refine setGate_outside hnr ?_ hdesc
  simp only [GATE_DESC_SIZE, IDT_ENTRIES, IDT_SIZE] at *
  bv_omega

end

/-! ### Setting handlers -/

/-- A call of `set_intr_handler` or `set_trap_handler`. -/
structure SetCall where
  trap : Bool
  nr : BitVec 32
  handler : Word

def SetCall.run (sym : Symbols) (m : Mem) (call : SetCall) : Mem :=
  if call.trap then setTrapHandler sym m call.nr call.handler
  else setIntrHandler sym m call.nr call.handler

/-- The gate that a call sets. -/
def SetCall.gate (call : SetCall) : GateDesc :=
  kernelGateInit (if call.trap then SEG_TYPE_SYS_80386_TRAP_GATE else SEG_TYPE_SYS_80386_INTR_GATE)
    call.handler DEFAULT_KERNEL_CS_SELECTOR

/-- The last of the calls for a vector. -/
def lastSet (calls : List SetCall) (v : Nat) : Option SetCall :=
  (calls.filter fun call => call.nr.toNat = v).getLast?

/-- The calls of `idt_init`. -/
def idtCalls (sym : Symbols) : List SetCall := (idtHandlers sym).map fun h => ⟨false, h.1, h.2⟩

/-- What holds of the tables after the calls. -/
structure GateTables (sym : Symbols) (calls : List SetCall) (m : Mem) : Prop where
  segments : ∀ i < GDT_ENTRIES, segmentAt sym m i = pack (gdt i).fields
  gates : ∀ v < 256, gateAt sym m v = (lastSet calls v).elim 0 fun call => pack call.gate.fields

section

variable {sym : Symbols} {m : Mem} {call : SetCall} {calls calls' : List SetCall} {v : Nat}

/-- Both ways of setting a handler are one write of a gate to the table. -/
theorem setCall_run : call.run sym m = setGate sym m call.nr call.gate := by
  cases htrap : call.trap
  · simp [SetCall.run, SetCall.gate, htrap, setIntrHandler, kernelIntrGateInit]
  · simp [SetCall.run, SetCall.gate, htrap, setTrapHandler, kernelTrapGateInit]

/-- A further call decides its own vector, and no other. -/
theorem lastSet_concat :
    lastSet (calls ++ [call]) v = if v = call.nr.toNat then some call else lastSet calls v := by
  by_cases hv : v = call.nr.toNat
  · simp [lastSet, hv]
  · have hne : ¬ call.nr.toNat = v := fun e => hv e.symm
    simp [lastSet, hv, hne]

/-- No handler is set in the memory that is loaded: its interrupt table is zero, and the segments
are in place before any call. -/
theorem Loaded.tables (h : Loaded sym m) : GateTables sym [] m where
  segments := h.segments
  gates := by
    intro v hv
    have hread : gateAt sym m v = 0 % 256 ^ GATE_DESC_SIZE := by
      refine readNum_eq fun k hk => ?_
      have hzero := h.noGates (v * GATE_DESC_SIZE + k)
        (by simp only [IDT_SIZE, GATE_DESC_SIZE] at *; omega)
      rw [BitVec.ofNat_add, ← BitVec.add_assoc] at hzero
      rw [hzero, Nat.zero_div]
      rfl
    rw [hread, Nat.zero_mod]
    rfl

/-- One call writes its gate and leaves the other gates and the segments alone. -/
theorem GateTables.step (hp : Placed sym) (h : GateTables sym calls m)
    (hnr : call.nr.toNat < IDT_ENTRIES) : GateTables sym (calls ++ [call]) (call.run sym m) where
  segments := by
    intro i hi
    rw [setCall_run, segmentAt_setGate hp hnr hi]
    exact h.segments i hi
  gates := by
    intro v hv
    rw [setCall_run, gateAt_setGate hp hnr hv, lastSet_concat, h.gates v hv]
    split <;> rfl

/-- Any number of calls: each vector has the gate of the last call for it. -/
theorem GateTables.run (hp : Placed sym) (h : GateTables sym calls m)
    (hnr : ∀ call ∈ calls', call.nr.toNat < IDT_ENTRIES) :
    GateTables sym (calls ++ calls') (calls'.foldl (SetCall.run sym) m) := by
  induction calls' generalizing calls m with
  | nil => simpa using h
  | cons call calls' ih =>
      have hstep := h.step hp (hnr call (by simp))
      have hrest := ih hstep fun c hc => hnr c (by simp [hc])
      rwa [List.append_assoc] at hrest

/-- `idt_init` is the run of its calls, one for each vector that has a handler. -/
theorem archInit_mem (c : Cpu) :
    (archInit sym c).mem = (idtCalls sym).foldl (SetCall.run sym) c.mem := by
  simp [archInit, idtInit, gdtInit, idtCalls, List.foldl_map, SetCall.run]

/-- The calls of `idt_init` are for vectors of the table. -/
theorem idtCalls_nr : ∀ call ∈ idtCalls sym, call.nr.toNat < IDT_ENTRIES := by
  simp [idtCalls, idtHandlers, IDT_ENTRIES, TRAP_DE, TRAP_DB, TRAP_NMI, TRAP_BP, TRAP_OF, TRAP_BR,
    TRAP_UD, TRAP_NM, TRAP_DF, TRAP_OLD_MF, TRAP_TS, TRAP_NP, TRAP_SS, TRAP_GP, TRAP_PF,
    TRAP_NON_1, TRAP_MF, TRAP_AC, TRAP_MC, TRAP_XM, TRAP_VE, TRAP_CP]

/-- The calls are those for the vectors below 22, in order. -/
theorem idtCalls_eq (sym : Symbols) : idtCalls sym = (List.range 22).map fun v =>
    ⟨false, BitVec.ofNat 32 v, if v = 14 then sym.pageFaultHandler else sym.nullIntrHandler⟩ :=
  rfl

/-- The handlers after `arch_init`: `page_fault_handler` for a page fault, and
`null_intr_handler` for the other exceptions. -/
theorem lastSet_idtCalls : lastSet (idtCalls sym) v = if v < 22 then
      some ⟨false, BitVec.ofNat 32 v,
        if v = 14 then sym.pageFaultHandler else sym.nullIntrHandler⟩
    else none := by
  by_cases hv : v < 22
  · rw [if_pos hv]
    interval_cases v <;> rfl
  · have hnone : ∀ w ∈ List.range 22, ¬ (BitVec.ofNat 32 w).toNat = v := by
      intro w hw e
      have hlt := List.mem_range.mp hw
      have hsmall : (BitVec.ofNat 32 w).toNat = w := Nat.mod_eq_of_lt (by omega)
      omega
    rw [if_neg hv, lastSet, idtCalls_eq, List.filter_map, List.getLast?_map,
      List.filter_eq_nil_iff.mpr (by simpa using hnone)]
    rfl

/-- What the processor reads of the segment of the handlers. -/
theorem readSegment_kernelCs : readSegment (pack (gdt GDT_KERNEL_CS).fields) =
    { base := 0, limit := 0xFFFFF, type := 11, s := 1, dpl := 0, present := 1, avl := 0, long := 1,
      db := 0, granularity := 1 } :=
  readSegment_descriptorInit 0 0xFFFFF 0xA09B

/-- The segment of the handlers passes the checks that the processor makes of a code segment. -/
theorem GateTables.codeSegment_ok {c : Cpu} (h : GateTables sym calls c.mem)
    (hgdtr : c.gdtr = ⟨BitVec.ofNat 16 GDT_SIZE, sym.gdt⟩) : codeSegment c 8 = .ok () := by
  have hread : c.mem.readNum (sym.gdt + BitVec.ofNat 64 (1 * 8)) 8 = pack (gdt 1).fields :=
    h.segments 1 (by decide)
  have hseg : readSegment (pack (gdt 1).fields) = _ := readSegment_kernelCs
  simp [codeSegment, hgdtr, hread, hseg, GDT_SIZE, GDT_ENTRIES, DESCRIPTOR_SIZE]

/-- A vector goes to the handler that was set last for it: the processor finds the gate in
the table, the segment that the gate names in the other one, and both are as the calls have
left them. -/
theorem GateTables.deliver_eq {c : Cpu} (h : GateTables sym calls c.mem)
    (hgdtr : c.gdtr = ⟨BitVec.ofNat 16 GDT_SIZE, sym.gdt⟩)
    (hidtr : c.idtr = ⟨BitVec.ofNat 16 IDT_SIZE, sym.idt⟩) (vector : BitVec 8) :
    deliver c vector = (lastSet calls vector.toNat).elim (.error .generalProtection)
      fun call => .ok ⟨call.handler, 8, !call.trap⟩ := by
  have hv := vector.isLt
  have hlimit : ¬ vector.toNat * 16 + 15 > c.idtr.size.toNat := by
    rw [hidtr]
    simp only [IDT_SIZE, BitVec.toNat_ofNat]
    omega
  have hgate : c.mem.readNum (c.idtr.address + BitVec.ofNat 64 (vector.toNat * 16)) 16
      = (lastSet calls vector.toNat).elim 0 fun call => pack call.gate.fields := by
    rw [hidtr]
    exact h.gates vector.toNat hv
  have hseg := h.codeSegment_ok hgdtr
  simp only [deliver, if_neg hlimit, hgate]
  cases lastSet calls vector.toNat with
  | none => rfl
  | some call =>
      have hread : readGate (pack call.gate.fields) = _ := readGate_kernelGateInit _ _ _
      cases htrap : call.trap
      all_goals
        simp [hread, htrap, hseg, Except.bind, DEFAULT_KERNEL_CS_SELECTOR,
          SEG_TYPE_SYS_80386_TRAP_GATE, SEG_TYPE_SYS_80386_INTR_GATE]

/-- The calls after `arch_init` come before those of `arch_init`. -/
theorem lastSet_append :
    lastSet (calls ++ calls') v = (lastSet calls' v).or (lastSet calls v) := by
  rw [lastSet, List.filter_append, List.getLast?_append]
  rfl

end

/-! ### Where a vector goes -/

/-- After `arch_init` and any calls of `set_intr_handler` and `set_trap_handler`, a vector goes
to the handler of the last call for it, with interrupts off unless that is one for traps.
Without a call, a page fault goes to `page_fault_handler` and every other exception to
`null_intr_handler`. The vectors from 22 on have no gate. -/
theorem deliver_archInit (sym : Symbols) (c : Cpu) (calls : List SetCall) (hp : Placed sym)
    (hl : Loaded sym c.mem) (hnr : ∀ call ∈ calls, call.nr.toNat < IDT_ENTRIES)
    (vector : BitVec 8) :
    deliver { archInit sym c with mem := calls.foldl (SetCall.run sym) (archInit sym c).mem } vector
      = match lastSet calls vector.toNat with
        | some call => .ok ⟨call.handler, 8, !call.trap⟩
        | none =>
            if vector.toNat < 22 then
              .ok ⟨if vector.toNat = 14 then sym.pageFaultHandler else sym.nullIntrHandler, 8, true⟩
            else .error .generalProtection := by
  have harch : GateTables sym (idtCalls sym) (archInit sym c).mem := by
    rw [archInit_mem]
    exact hl.tables.run hp idtCalls_nr
  have htables := harch.run hp hnr
  rw [htables.deliver_eq rfl rfl, lastSet_append, lastSet_idtCalls]
  cases lastSet calls vector.toNat with
  | some call => rfl
  | none => split <;> rfl

/-- A memory that is loaded: the global table, and zeros. -/
def loadedMem (sym : Symbols) : Mem := fun x =>
  let k := (x - sym.gdt).toNat
  if k < GDT_SIZE then
    BitVec.ofNat 8 (pack (gdt (k / DESCRIPTOR_SIZE)).fields / 256 ^ (k % DESCRIPTOR_SIZE))
  else 0

/-- The memory with the global table and zeros everywhere else is one in which the kernel may be
loaded. -/
theorem loaded_loadedMem {sym : Symbols} (hp : Placed sym) : Loaded sym (loadedMem sym) where
  segments := by
    intro i hi
    have hlt := pack_lt (gdt i).fields
    have hwidth : fieldsWidth (gdt i).fields = 64 := by simp [fieldsWidth, Descriptor.fields]
    have hfits : pack (gdt i).fields % 256 ^ DESCRIPTOR_SIZE = pack (gdt i).fields :=
      Nat.mod_eq_of_lt (by rwa [hwidth] at hlt)
    rw [← hfits]
    refine readNum_eq fun k hk => ?_
    simp only [GDT_ENTRIES, DESCRIPTOR_SIZE] at hi hk
    have hplace : (sym.gdt + BitVec.ofNat 64 (i * 8) + BitVec.ofNat 64 k - sym.gdt).toNat
        = i * 8 + k := by bv_omega
    have hindex : (i * 8 + k) / 8 = i := by omega
    have hbyte : (i * 8 + k) % 8 = k := by omega
    simp only [loadedMem, DESCRIPTOR_SIZE, GDT_SIZE, GDT_ENTRIES, hplace, hindex, hbyte]
    exact if_pos (by omega)
  noGates := by
    intro k hk
    have hfar := hp.idt_gdt.symm.le_sub (by decide) hk
    exact if_neg (Nat.not_lt.mpr hfar)

/-- With a trap handler set for vector 3 after `arch_init`, the breakpoint exception enters that
handler in the kernel's code segment, with interrupts disabled as `arch_init` left them. -/
theorem deliver_archInit_breakpoint :
    let sym : Symbols := ⟨0x1000, 0x3000, 0x8000, 0x5000, 0x6000⟩
    let c : Cpu := ⟨loadedMem sym, ⟨0, 0⟩, ⟨0, 0⟩, true⟩
    let mem := [SetCall.mk true 3 0x7000].foldl (SetCall.run sym) (archInit sym c).mem
    deliver { archInit sym c with mem := mem } 3 = .ok ⟨0x7000, 8, false⟩ := by
  intro sym c
  have hp : Placed sym :=
    ⟨⟨by decide, by decide⟩, ⟨by decide, by decide⟩, ⟨by decide, by decide⟩⟩
  exact deliver_archInit sym c [⟨true, 3, 0x7000⟩] hp (loaded_loadedMem hp)
    (by simp [IDT_ENTRIES]) 3

end SumiOS
