import MarketBenchmark.Foundation.Endian

/-!
# Classic packet filters

A classic BPF program is a list of instructions over an accumulator and an
index register.  Loads are big-endian from the start of the packet, a load out
of range drops the packet, jumps go forward, and a return states how many bytes
of the packet to keep: none drops it.  Covered are the loads from the packet,
the test for equality and the constant return.
-/

namespace MarketBenchmark.Foundation.ClassicBpf

open Endian

/-- A raw instruction: opcode, jumps if true and if false, and operand. -/
structure Instruction where
  code : Nat
  jt : Nat
  jf : Nat
  k : Nat
  deriving DecidableEq, Repr

/-- What an instruction does. -/
inductive Operation where
  | loadAbsolute (size k : Nat)
  | loadIndexed (size k : Nat)
  | loadHeaderLength (k : Nat)
  | jumpEqual (k jt jf : Nat)
  | ret (k : Nat)
  deriving DecidableEq, Repr

/-- The operation of an opcode; the others are not covered. -/
def Instruction.decode (instruction : Instruction) : Option Operation :=
  match instruction.code with
  | 0x20 => some (.loadAbsolute 4 instruction.k)
  | 0x28 => some (.loadAbsolute 2 instruction.k)
  | 0x30 => some (.loadAbsolute 1 instruction.k)
  | 0x40 => some (.loadIndexed 4 instruction.k)
  | 0x48 => some (.loadIndexed 2 instruction.k)
  | 0x50 => some (.loadIndexed 1 instruction.k)
  | 0xb1 => some (.loadHeaderLength instruction.k)
  | 0x15 => some (.jumpEqual instruction.k instruction.jt instruction.jf)
  | 0x06 => some (.ret instruction.k)
  | _ => none

structure Machine where
  acc : Nat
  index : Nat
  deriving DecidableEq, Repr

/-- The big-endian number in so many bytes of the packet. -/
def load (packet : List UInt8) (start size : Nat) : Option Nat :=
  if start + size ≤ packet.length then some (fromBe ((packet.drop start).take size)) else none

/-- Run the operations after the skipped ones; a program that runs off its end has no result. -/
def exec (packet : List UInt8) : List Operation → (skip : Nat) → Machine → Option Nat
  | [], _, _ => none
  | _ :: rest, skip + 1, machine => exec packet rest skip machine
  | .loadAbsolute size k :: rest, 0, machine =>
      (load packet k size).elim (some 0) fun value =>
        exec packet rest 0 { machine with acc := value }
  | .loadIndexed size k :: rest, 0, machine =>
      (load packet ((machine.index + k) % 2 ^ 32) size).elim (some 0) fun value =>
        exec packet rest 0 { machine with acc := value }
  | .loadHeaderLength k :: rest, 0, machine =>
      (load packet k 1).elim (some 0) fun value =>
        exec packet rest 0 { machine with index := value % 16 * 4 }
  | .jumpEqual k jt jf :: rest, 0, machine =>
      exec packet rest (if machine.acc = k then jt else jf) machine
  | .ret k :: _, 0, _ => some k

/-- How many bytes of the packet the program keeps. -/
def execute (program : List Instruction) (packet : List UInt8) : Option Nat :=
  (program.mapM Instruction.decode).bind fun operations =>
    exec packet operations 0 { acc := 0, index := 0 }

/-- The program keeps the packet, or a part of it. -/
def Accepts (program : List Instruction) (packet : List UInt8) : Prop :=
  ∃ kept, execute program packet = some kept ∧ kept ≠ 0

section Rules

variable {packet : List UInt8} {rest : List Operation} {machine : Machine} {size k value : Nat}

theorem load_of_le {start : Nat} (inside : start + size ≤ packet.length) :
    load packet start size = some (fromBe ((packet.drop start).take size)) := if_pos inside

theorem load_eq_some {start : Nat} (loaded : load packet start size = some value) :
    start + size ≤ packet.length ∧ fromBe ((packet.drop start).take size) = value := by
  unfold load at loaded
  split at loaded
  · next inside => exact ⟨inside, Option.some.inj loaded⟩
  · cases loaded

theorem exec_loadAbsolute (loaded : load packet k size = some value) :
    exec packet (.loadAbsolute size k :: rest) 0 machine =
      exec packet rest 0 { machine with acc := value } := by
  rw [exec, loaded]
  rfl

theorem exec_loadIndexed (loaded : load packet ((machine.index + k) % 2 ^ 32) size = some value) :
    exec packet (.loadIndexed size k :: rest) 0 machine =
      exec packet rest 0 { machine with acc := value } := by
  rw [exec, loaded]
  rfl

theorem exec_loadHeaderLength (loaded : load packet k 1 = some value) :
    exec packet (.loadHeaderLength k :: rest) 0 machine =
      exec packet rest 0 { machine with index := value % 16 * 4 } := by
  rw [exec, loaded]
  rfl

/-- What keeps something did not stop at a load out of range. -/
theorem kept_of_elim {kept : Nat} {loaded : Option Nat} {next : Nat → Option Nat}
    (positive : kept ≠ 0) (executed : loaded.elim (some 0) next = some kept) :
    ∃ value, loaded = some value ∧ next value = some kept := by
  cases loaded with
  | none => exact absurd (Option.some.inj executed).symm positive
  | some value => exact ⟨value, rfl, executed⟩

theorem exec_loadAbsolute_kept {kept : Nat} (positive : kept ≠ 0)
    (executed : exec packet (.loadAbsolute size k :: rest) 0 machine = some kept) :
    ∃ value, load packet k size = some value ∧
      exec packet rest 0 { machine with acc := value } = some kept := by
  rw [exec] at executed
  exact kept_of_elim positive executed

theorem exec_loadIndexed_kept {kept : Nat} (positive : kept ≠ 0)
    (executed : exec packet (.loadIndexed size k :: rest) 0 machine = some kept) :
    ∃ value, load packet ((machine.index + k) % 2 ^ 32) size = some value ∧
      exec packet rest 0 { machine with acc := value } = some kept := by
  rw [exec] at executed
  exact kept_of_elim positive executed

theorem exec_loadHeaderLength_kept {kept : Nat} (positive : kept ≠ 0)
    (executed : exec packet (.loadHeaderLength k :: rest) 0 machine = some kept) :
    ∃ value, load packet k 1 = some value ∧
      exec packet rest 0 { machine with index := value % 16 * 4 } = some kept := by
  rw [exec] at executed
  exact kept_of_elim positive executed

/-- A test that drops the packet unless it holds: what keeps something passed it. -/
theorem exec_jumpEqual_kept {kept jt jf : Nat} (positive : kept ≠ 0)
    (drops : exec packet rest jf machine = some 0)
    (executed : exec packet (.jumpEqual k jt jf :: rest) 0 machine = some kept) :
    machine.acc = k ∧ exec packet rest jt machine = some kept := by
  rw [exec] at executed
  split at executed
  · next same => exact ⟨same, executed⟩
  · rw [drops] at executed
    exact absurd (Option.some.inj executed).symm positive

theorem exec_jumpEqual_of_eq {jt jf : Nat} (same : machine.acc = k) :
    exec packet (.jumpEqual k jt jf :: rest) 0 machine = exec packet rest jt machine := by
  rw [exec, if_pos same]

end Rules

end MarketBenchmark.Foundation.ClassicBpf
