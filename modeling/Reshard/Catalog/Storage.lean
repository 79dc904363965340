import Reshard.Catalog.Document

/-! Catalogs in storage.

    A storage keeps documents under paths. It may fail to fetch or to keep one, and says no more
    than that; the path goes into the message.

    Source: `save` and `load` of the strategy registry. -/

namespace Reshard

/-- A place that keeps documents under paths. -/
structure Storage (m : Type → Type) where
  /-- The document under a path. -/
  fetch : String → m (Option String)
  /-- Keeps a document under a path, and says whether that succeeded. -/
  keep : String → String → m Bool

namespace Catalog

variable {m : Type → Type} [Monad m] {α : Type} [Cost α] [CostFormat α]

/-- Stores a catalog. A catalog without a document leaves the storage alone. -/
def save (storage : Storage m) (path : String) (r : Catalog α) :
    m (Except (DocumentFault α) Unit) := do
  match r.encode with
  | .error fault => return .error fault
  | .ok document =>
    if ← storage.keep path document then return .ok () else return .error (.cannotWrite path)

/-- Fetches a catalog. -/
def load (storage : Storage m) (path : String) : m (Except (DocumentFault α) (Catalog α)) := do
  match ← storage.fetch path with
  | some document => return decode document
  | none => return .error (.cannotRead path)

end Catalog

end Reshard
