/-!
Shared assets.

An asset is compared by identity: two assets with equal contents are different assets, and whoever holds
an asset sees the same contents.
-/

namespace Armature

/-- An asset: what it holds, and the number that tells it from other assets. -/
structure Asset (β : Type) where
  id : Nat
  value : β

/-- Whether two references are to the same asset, or both to none. -/
def Asset.same {β : Type} (a b : Option (Asset β)) : Bool :=
  a.map (·.id) == b.map (·.id)

end Armature
