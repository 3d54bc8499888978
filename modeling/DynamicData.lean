import DynamicData.Heap.Update
import DynamicData.Json.Shape
import DynamicData.Path.Read
import DynamicData.Path.Resolve
import DynamicData.Payload
import DynamicData.Tree.Debug
import DynamicData.Tree.Digest
import DynamicData.Proofs.Entries
import DynamicData.Proofs.Heap.Containment
import DynamicData.Proofs.Heap.Unfolding
import DynamicData.Proofs.Tree
import DynamicData.Proofs.Distinct
import DynamicData.Proofs.Heap.Growth
import DynamicData.Proofs.Heap.History
import DynamicData.Proofs.Bytes
import DynamicData.Proofs.Heap.Loading
import DynamicData.Proofs.RoundTrip.Binary
import DynamicData.Proofs.Json.Container
import DynamicData.Proofs.RoundTrip.Json
import DynamicData.Proofs.RoundTrip.Term
import DynamicData.Proofs.Path.Exact
import DynamicData.Proofs.Heap.Depth
import DynamicData.Proofs.Path.Composition
import DynamicData.Proofs.Heap.Equality
import DynamicData.Proofs.Heap.Hashing
import DynamicData.Proofs.Path.Visibility
import DynamicData.Proofs.Heap.Admission
import DynamicData.Proofs.Heap.Refusal
import DynamicData.Proofs.Heap.Copying
import DynamicData.Proofs.Heap.Territory
import DynamicData.Proofs.Heap.Separation
import DynamicData.Proofs.Heap.Reading
import DynamicData.Proofs.Source
import DynamicData.Proofs.Narrowing
import DynamicData.Proofs.RoundTrip.Again
import DynamicData.Proofs.Term.Delimited
import DynamicData.Proofs.Path.Canonical
import DynamicData.Proofs.Path.Optional
import DynamicData.Proofs.Path.Rooted
import DynamicData.Proofs.RoundTrip.Integer
import DynamicData.Proofs.Time.Calendar
import DynamicData.Proofs.Time.Clock
import DynamicData.Proofs.Heap.Canonical
import DynamicData.Proofs.RoundTrip.DateTime
import DynamicData.Proofs.RoundTrip.Pretty
import DynamicData.Proofs.Heap.Equivalence
import DynamicData.Proofs.Heap.Frame
import DynamicData.Proofs.Heap.OrderedMap
import DynamicData.Proofs.Heap.Sequence
import DynamicData.Proofs.Merged
import DynamicData.Proofs.Json.Grammar
import DynamicData.Proofs.Term.Merged
import DynamicData.Proofs.Heap.Assembly
import DynamicData.Proofs.Heap.RepeatedKeys
import DynamicData.Proofs.Heap.Ancestor
import DynamicData.Proofs.Path.Fault
import DynamicData.Proofs.Heap.Sourced
