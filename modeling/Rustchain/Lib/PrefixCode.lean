/-
  Rustchain.Lib.PrefixCode

  Self-delimiting codes: a writer and a reader such that reading back what was
  written returns the value and leaves whatever follows it.  The law is a field,
  so every code built from others by the combinators below carries its proof.
-/

import Mathlib.Data.List.Basic

namespace Rustchain

structure PrefixCode (α : Type) where
  write : α → List UInt8
  read : List UInt8 → Option (α × List UInt8)
  read_write : ∀ a rest, read (write a ++ rest) = some (a, rest)

namespace PrefixCode

variable {α β : Type}

/-- Reading a whole input: nothing may be left over. -/
def readAll (c : PrefixCode α) (bytes : List UInt8) : Option α :=
  match c.read bytes with
  | some (a, []) => some a
  | _ => none

theorem readAll_write (c : PrefixCode α) (a : α) : c.readAll (c.write a) = some a := by
  have h := c.read_write a []
  rw [List.append_nil] at h
  rw [readAll, h]

def byte : PrefixCode UInt8 where
  write b := [b]
  read
    | [] => none
    | b :: rest => some (b, rest)
  read_write _ _ := rfl

/-- Reads the ones before the first zero. -/
def readUnary : List UInt8 → Option (Nat × List UInt8)
  | [] => none
  | b :: rest => if b = 0 then some (0, rest) else (readUnary rest).map fun r => (r.1 + 1, r.2)

/-- A natural number as so many ones and a zero. -/
def nat : PrefixCode Nat where
  write n := List.replicate n 1 ++ [0]
  read := readUnary
  read_write := by
    intro n rest
    induction n with
    | zero => rfl
    | succ n ih =>
        rw [List.replicate_succ, List.cons_append, List.cons_append, readUnary,
          if_neg (by decide), ih]
        rfl

/-- One value after the other. -/
def prod (c : PrefixCode α) (d : PrefixCode β) : PrefixCode (α × β) where
  write x := c.write x.1 ++ d.write x.2
  read bytes :=
    match c.read bytes with
    | none => none
    | some (a, bytes) => (d.read bytes).map fun r => ((a, r.1), r.2)
  read_write := by
    intro x rest
    rw [List.append_assoc, c.read_write]
    simp only
    rw [d.read_write]
    rfl

/-- A code for `β` from one for `α`, along a map with a left inverse. -/
def via (c : PrefixCode α) (down : β → α) (up : α → β) (h : ∀ b, up (down b) = b) :
    PrefixCode β where
  write b := c.write (down b)
  read bytes := (c.read bytes).map fun r => (up r.1, r.2)
  read_write := by
    intro b rest
    rw [c.read_write, Option.map_some, h]

/-- Reads `n` values. -/
def readMany (c : PrefixCode α) : Nat → List UInt8 → Option (List α × List UInt8)
  | 0, bytes => some ([], bytes)
  | n + 1, bytes =>
    match c.read bytes with
    | none => none
    | some (a, bytes) => (readMany c n bytes).map fun r => (a :: r.1, r.2)

theorem readMany_write (c : PrefixCode α) (l : List α) (rest : List UInt8) :
    c.readMany l.length (l.flatMap c.write ++ rest) = some (l, rest) := by
  induction l with
  | nil => rfl
  | cons a l ih =>
      rw [List.flatMap_cons, List.append_assoc, List.length_cons, readMany, c.read_write]
      simp only
      rw [ih]
      rfl

/-- The number of elements and then the elements. -/
def list (c : PrefixCode α) : PrefixCode (List α) where
  write l := nat.write l.length ++ l.flatMap c.write
  read bytes :=
    match nat.read bytes with
    | none => none
    | some (n, bytes) => c.readMany n bytes
  read_write := by
    intro l rest
    rw [List.append_assoc, nat.read_write]
    exact c.readMany_write l rest

end PrefixCode

end Rustchain
