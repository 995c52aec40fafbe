import Depot.Json.Decode
import Depot.Json.Text
import Depot.Main
import Depot.Queue.Session
import Depot.Volume.Layout
import Depot.World
import Depot.Proofs.Queue.Turns
import Depot.Proofs.Queue.Arrival
import Depot.Proofs.Queue.Registration
import Depot.Proofs.Folder.Containment
import Depot.Proofs.Storage.Isolation
import Depot.Proofs.Storage.Atomicity
import Depot.Proofs.Storage.Freshness
import Depot.Proofs.Storage.Validation
import Depot.Proofs.Storage.Refusal
import Depot.Proofs.Storage.Reupload
import Depot.Proofs.Storage.Race
import Depot.Proofs.Volume.Order
import Depot.Proofs.Collect
import Depot.Proofs.Sink
import Depot.Proofs.Storage.Collision
import Depot.Proofs.Bundle.Undone
import Depot.Proofs.Queue.Capacity
import Depot.Proofs.Queue.Exchange
import Depot.Proofs.Queue.Withdrawal
import Depot.Proofs.Queue.Relocation
import Depot.Proofs.Location.Grammar
import Depot.Proofs.Location.Home
import Depot.Proofs.Json.RoundTrip
import Depot.Proofs.Queue.Search
import Depot.Proofs.Storage.Keys
