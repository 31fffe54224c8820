import Machina.ByteMem
import Machina.CallMoves

/-!
# Host code on a machine

Registers hold 64-bit words, memory holds bytes. Moves, immediates, loads and stores
work at the width of their type; a load clears the upper bits. The other host
operations are not executed here: they belong to the operation that asked for them.
-/

namespace MachinaHost

open MachinaByteMem MachinaIr MachinaIrSem MachinaRegalloc MachinaCallMoves

structure Host where
  regs : Reg → BitVec 64
  mem : Mem

/-- The bytes a word of a type takes in memory. -/
def bytes (ty : IrType) : Nat := width ty / 8

def Host.step (h : Host) : HostOp → Host
  | .mov ty dst src => { h with regs := execHost h.regs (.mov ty dst src) }
  | .movi ty dst val => { h with regs := Function.update h.regs dst ((low ty val).setWidth 64) }
  | .ld ty dst base offset =>
    { h with regs := Function.update h.regs dst (read h.mem (h.regs base + BitVec.ofInt 64 offset) (bytes ty)) }
  | .st ty src base offset =>
    { h with mem := write h.mem (h.regs base + BitVec.ofInt 64 offset) (bytes ty) (h.regs src) }

def Host.run (h : Host) (code : List HostOp) : Host := code.foldl Host.step h

theorem run_append (h : Host) (code code' : List HostOp) : h.run (code ++ code') = (h.run code).run code' :=
  List.foldl_append

theorem width_eq (ty : IrType) : width ty = 8 * bytes ty := by
  cases ty <;> rfl

theorem bytes_pos (ty : IrType) : 0 < bytes ty := by
  cases ty <;> decide

theorem bytes_le (ty : IrType) : bytes ty ≤ 8 := by
  cases ty <;> decide

theorem bytes_le_size (ty : IrType) : bytes ty ≤ ty.sizeBytes := by
  cases ty <;> decide

theorem low_read_write (mem : Mem) (a : BitVec 64) (ty : IrType) (v : BitVec 64) :
    low ty (read (write mem a (bytes ty) v) a (bytes ty)) = low ty v := by
  have h := read_write_same mem a v (bytes_le ty)
  rw [← width_eq] at h
  exact h

theorem step_mov_other (h : Host) (ty : IrType) (src : Reg) {dst reg : Reg} (hne : reg ≠ dst) :
    (h.step (.mov ty dst src)).regs reg = h.regs reg := exec_other h.regs ⟨src, dst, ty⟩ hne

theorem low_step_mov (h : Host) (ty : IrType) (dst src : Reg) :
    low ty ((h.step (.mov ty dst src)).regs dst) = low ty (h.regs src) := low_exec_dst h.regs ⟨src, dst, ty⟩

end MachinaHost
