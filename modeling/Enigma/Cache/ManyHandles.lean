import Enigma.Cache.Sessions

/-! A client that looks one key up again and again without releasing anything. The 32-bit
count of the references comes back to zero while all the handles are still out. -/

namespace Enigma

namespace Cache

/-- The only entry of a cache is in use. -/
def loneLinks : Node → Option Node
  | .lru => some .lru
  | .inUse => some (.handle 0)
  | .handle 0 => some .inUse
  | .handle (_ + 1) => none

def loneHandles (refs : Nat) : Handles Unit Unit
  | 0 => some ⟨(), (), 1, [], 0, true, refs⟩
  | _ + 1 => none

def loneCache (refs : Nat) (hits : UInt64) : LRUCache Unit Unit where
  capacity := 1
  usage := 1
  links := ⟨loneLinks, loneLinks⟩
  table := ⟨4, 1, [[0], [], [], []]⟩
  stats := ⟨0, 1, 0, hits⟩
  handles := loneHandles refs
  allocated := 1
  deleterCalls := []

def sameHash : Key → Nat := fun _ => 0

theorem cache_ext {V D : Type} {left right : LRUCache V D} (next : ∀ node, left.links.next node = right.links.next node)
    (prev : ∀ node, left.links.prev node = right.links.prev node) (handles : ∀ e, left.handles e = right.handles e)
    (rest : { left with links := right.links, handles := right.handles } = right) : left = right := by
  have links : left.links = right.links := congrArg₂ Links.mk (funext next) (funext prev)
  rw [← rest, ← links, ← funext handles]

theorem insert_lone :
    (LRUCache.new 1 : LRUCache Unit Unit).insert [] 0 () 1 () = some (loneCache 2 0, 0) := by
  refine congrArg (fun cache => some (cache, 0)) (cache_ext ?_ ?_ ?_ rfl)
  · rintro (_ | _ | _ | _) <;> rfl
  · rintro (_ | _ | _ | _) <;> rfl
  · rintro (_ | _) <;> rfl

theorem find_lone (refs : Nat) (hits : UInt64) :
    (loneCache refs hits).table.lookup (loneCache refs hits).handles [] 0 = some (some 0) := by
  simp [HashMap.lookup, findPointer, loneCache, loneHandles]

theorem lookup_lone {refs : Nat} (several : refs ≠ 1) (hits : UInt64) :
    (loneCache refs hits).lookup [] 0 = some (loneCache ((refs + 1) % 2 ^ 32) (hits + 1), some 0) := by
  have handles : Function.update (loneHandles refs) 0 (some ⟨(), (), 1, [], 0, true, (refs + 1) % 2 ^ 32⟩) =
      loneHandles ((refs + 1) % 2 ^ 32) := by
    funext e
    cases e with
    | zero => rfl
    | succ e => rfl
  have present : (loneCache refs hits).handles 0 = some ⟨(), (), 1, [], 0, true, refs⟩ := rfl
  simp only [LRUCache.lookup, find_lone, Option.bind_eq_bind, Option.bind_some, LRUCache.ref, present, several,
    false_and, if_false, LRUCache.setHandle, Option.pure_def]
  simp only [loneCache, handles]

/-- Every lookup adds a handle; the count follows while it fits. -/
theorem reached_lone (lookups : Nat) (few : lookups ≤ 2 ^ 32 - 2) :
    ∃ history, Reached sameHash (fun _ _ => True) 1
      ⟨loneCache ((lookups + 2) % 2 ^ 32) (.ofNat lookups), List.replicate (lookups + 1) 0, history⟩ := by
  induction lookups with
  | zero =>
    have returned : (Session.new 1).call sameHash (.insert [] () 1 ()) =
        some ⟨loneCache 2 0, [0], [.inserted [] 0 []]⟩ := by
      simp only [Session.call, Session.new, sameHash, insert_lone, Option.bind_eq_bind, Option.bind_some]
      rfl
    exact ⟨_, .call .new (by trivial) (by trivial) returned⟩
  | succ lookups ih =>
    obtain ⟨history, earlier⟩ := ih (by omega)
    have several : (lookups + 2) % 2 ^ 32 ≠ 1 := by omega
    have next : ((lookups + 2) % 2 ^ 32 + 1) % 2 ^ 32 = (lookups + 1 + 2) % 2 ^ 32 := by omega
    have hits : UInt64.ofNat lookups + 1 = .ofNat (lookups + 1) := (UInt64.ofNat_add lookups 1).symm
    have returned : Session.call sameHash
        ⟨loneCache ((lookups + 2) % 2 ^ 32) (.ofNat lookups), List.replicate (lookups + 1) 0, history⟩ (.lookup []) =
          some ⟨loneCache ((lookups + 1 + 2) % 2 ^ 32) (.ofNat (lookups + 1)), List.replicate (lookups + 2) 0,
            .lookedUp :: history⟩ := by
      simp only [Session.call, sameHash, lookup_lone several, next, hits, Option.bind_eq_bind, Option.bind_some]
      rfl
    exact ⟨_, .call earlier (by trivial) (by trivial) returned⟩

end Cache

end Enigma
