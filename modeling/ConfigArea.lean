import ConfigArea.Analysis
import ConfigArea.Proofs.Analysis.Agreement
import ConfigArea.Proofs.Analysis.Prepending
import ConfigArea.Proofs.Analysis.Supplied
import ConfigArea.Proofs.Detection.Extent
import ConfigArea.Proofs.Detection.Failures
import ConfigArea.Proofs.Detection.Locality
import ConfigArea.Proofs.Detection.Order
import ConfigArea.Proofs.Detection.Shape
import ConfigArea.Proofs.DeviceTree.Extent
import ConfigArea.Proofs.Guarded.Analysis
import ConfigArea.Proofs.Guarded.Reads
import ConfigArea.Proofs.Guarded.Window
import ConfigArea.Proofs.Location.Alignment
import ConfigArea.Proofs.Location.Nearest
import ConfigArea.Proofs.Location.Occurrence
import ConfigArea.Proofs.Location.Search
import ConfigArea.Proofs.Location.Window
import ConfigArea.Proofs.Relocation.Contents
import ConfigArea.Proofs.Relocation.Failures
import ConfigArea.Proofs.Relocation.Growth
import ConfigArea.Proofs.Relocation.Translation
import ConfigArea.Proofs.Sample.RoundTrip
import ConfigArea.Proofs.Settings.Json
import ConfigArea.Proofs.Summary.Coverage
import ConfigArea.Proofs.Summary.Json
import ConfigArea.Sample.Builder
import ConfigArea.Sample.Noise
import ConfigArea.Session
import ConfigArea.Tag.Json
