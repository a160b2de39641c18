import Armature.Actor
import Armature.Description.Json
import Armature.Graph.Clone
import Armature.Graph.Edit
import Armature.Graph.InPlace
import Armature.Json.Geometry
import Armature.Symbol
import Armature.Stage
import Armature.Proofs.Binding
import Armature.Proofs.NameIndex
import Armature.Proofs.Plain
import Armature.Proofs.Traversal
import Armature.Proofs.Command
import Armature.Proofs.Copy
import Armature.Proofs.CycleCheck
import Armature.Proofs.Isomorphism
import Armature.Proofs.TableHistory
import Armature.Proofs.Evaluation
import Armature.Proofs.Likeness
import Armature.Proofs.Observation
import Armature.Proofs.MistypedBindings
import Armature.Proofs.Reordering
import Armature.Proofs.Isolation
import Armature.Proofs.Publication
import Armature.Proofs.OneSampler
import Armature.Proofs.SampledTimes
import Armature.Proofs.AllOrNothing
import Armature.Proofs.KeyCoverage
import Armature.Proofs.Reload
import Armature.Proofs.Relocation
import Armature.Proofs.Reset
import Armature.Proofs.UnitQuaternion
import Armature.Proofs.UnitPose
import Armature.Proofs.UnitRotations
import Armature.Proofs.PaletteEntries
import Armature.Proofs.Bonewise
import Armature.Proofs.Interpolation
import Armature.Proofs.Layering
import Armature.Proofs.KeySampling
import Armature.Proofs.ClipSampling
import Armature.Proofs.BlendSymmetry
import Armature.Proofs.FastPaths
import Armature.Proofs.MonotoneRounding
import Armature.Proofs.ProgressRange
import Armature.Proofs.BindPose
import Armature.Proofs.PlaybackTimes
import Armature.Proofs.TwoRoundings
