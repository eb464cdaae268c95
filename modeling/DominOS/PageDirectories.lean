import DominOS.PagingSpec
import DominOS.Runs

/-! Page directories that are created, changed and destroyed in any order, by an allocator that also
serves requests for data. -/
namespace DominOS.PageDirectories
open Paging

inductive Owner where
  | data
  | dir (d : Nat)
deriving DecidableEq

structure World where
  frames : Frames
  dirs : Nat → Option (Nat × Dir)
  -- not in the source
  owner : Nat × Nat → Owner

inductive Event where
  | create (d : Nat) (offers : List Nat)
  | map (d virtStart virtEnd phyStart phyEnd : Nat) (flags : Flags) (offers : List Nat)
  | unmap (d virtStart virtEnd : Nat)
  | destroy (d : Nat)
  | alloc (n : Nat) (offers : List Nat)
  | free (a : Nat × Nat)

def Event.owner : Event → Owner
  | .create d _ => .dir d
  | .map d _ _ _ _ _ _ => .dir d
  | .unmap d _ _ => .dir d
  | .destroy d => .dir d
  | .alloc _ _ => .data
  | .free _ => .data

def UserAddr (virt : Nat) : Prop := 0x10000000 ≤ virt ∧ virt < 0x100000000

instance (virt : Nat) : Decidable (UserAddr virt) := inferInstanceAs (Decidable (_ ∧ _))

namespace World

def charge (o : Owner) (w : World) (frames : Frames) : World :=
  { w with
    frames := frames
    owner := fun b => if b ∈ frames.live ∧ b ∉ w.frames.live then o else w.owner b }

def setDir (d : Nat) (x : Option (Nat × Dir)) (w : World) : World :=
  { w with dirs := Function.update w.dirs d x }

/-- Zones lie at user addresses, and data that is freed is not a directory or a table. -/
def step (early : EarlyMem) (e : Event) (w : World) : Except Fault World :=
  match e with
  | .create d offers =>
    match w.dirs d with
    | some _ => .error .disabled
    | none => do
      let (a, dir, frames) ← pageDirectoryCreate early (w.frames.offer offers)
      .ok ((w.charge e.owner frames).setDir d (some (a, dir)))
  | .map d virtStart virtEnd phyStart phyEnd flags offers =>
    match w.dirs d with
    | none => .error .disabled
    | some (a, dir) =>
      if UserAddr virtStart ∧ UserAddr virtEnd then do
        let (dir, frames) ← mapZone virtStart virtEnd phyStart phyEnd flags dir (w.frames.offer offers)
        .ok ((w.charge e.owner frames).setDir d (some (a, dir)))
      else .error .disabled
  | .unmap d virtStart virtEnd =>
    match w.dirs d with
    | none => .error .disabled
    | some (a, dir) =>
      if UserAddr virtStart ∧ UserAddr virtEnd then
        .ok (w.setDir d (some (a, unmapZone virtStart virtEnd dir)))
      else .error .disabled
  | .destroy d =>
    match w.dirs d with
    | none => .error .disabled
    | some (a, dir) => do
      let frames ← pageDirectoryDestroy a dir w.frames
      .ok ((w.charge e.owner frames).setDir d none)
  | .alloc n offers => do
    let (_, frames) ← (w.frames.offer offers).alloc n
    .ok (w.charge e.owner frames)
  | .free a =>
    if w.owner a = .data then do
      let frames ← w.frames.free a
      .ok (w.charge e.owner frames)
    else .error .disabled

def owned (o : Owner) (w : World) : List (Nat × Nat) := w.frames.live.filter fun b => w.owner b = o

end World

def Booted (w : World) : Prop :=
  w.frames.Valid ∧ (∀ d, w.dirs d = none) ∧ ∀ b ∈ w.frames.live, w.owner b = .data

end DominOS.PageDirectories
