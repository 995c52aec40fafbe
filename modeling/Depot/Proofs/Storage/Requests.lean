import Depot.Proofs.Procedure
import Depot.Storage

/-!
# Requests to a storage, one after the other

A `Request` is one of the four operations with its argument, and a `Turn` is a request with the
world that it meets. A `Run` is any number of turns for one resource, whatever comes of them. What
may happen to the world from one turn to the next is said by a relation.

Out of scope: requests that overlap (`Depot.Proofs.Storage.Race`).
-/

namespace Depot.Storage

/-- What a storage can be asked to do for a resource. -/
inductive Request where
  | getFile (path : String)
  | download
  | uploadDir (source : Path)
  | uploadZip (bundle : Path)
  deriving DecidableEq

/-- What a request is answered with if it succeeds. -/
abbrev Request.Reply : Request → Type
  | .getFile _ => Content
  | .download => Link
  | .uploadDir _ | .uploadZip _ => Unit

/-- What a storage does about a request. -/
def serve (s : Storage) (r : Resource) : (q : Request) → Action q.Reply
  | .getFile path => s.getFile r path
  | .download => s.download r
  | .uploadDir source => s.uploadDir r source
  | .uploadZip bundle => s.uploadZip r bundle

/-- A request in the world that it meets. -/
structure Turn where
  before : World
  request : Request

namespace Turn

variable (s : Storage) (r : Resource) (t : Turn)

/-- What comes of a turn. -/
def reply : Except StorageError t.request.Reply :=
  (t.before.perform (s.serve r t.request).run).1

/-- The world after a turn. -/
def after : World :=
  (t.before.perform (s.serve r t.request).run).2

end Turn

/-- Turns from the world `w₀` on, the latest first, with the world they lead to; in between the
world goes from one to another that are in a relation. -/
inductive Run (s : Storage) (r : Resource) (Between : World → World → Prop) (w₀ : World) :
    List Turn → World → Prop where
  | start : Run s r Between w₀ [] w₀
  | between {ts : List Turn} {w w' : World} (h : Run s r Between w₀ ts w) (hb : Between w w') :
      Run s r Between w₀ ts w'
  | turn {ts : List Turn} {w : World} (h : Run s r Between w₀ ts w) (q : Request) :
      Run s r Between w₀ (⟨w, q⟩ :: ts) (Turn.after s r ⟨w, q⟩)

end Depot.Storage
