import ImageRegion.Raster
import ImageRegion.Session.Run
import ImageRegion.Proofs.Image.Opening
import ImageRegion.Proofs.Sampling.Centres
import ImageRegion.Proofs.Sampling.Averages
import ImageRegion.Proofs.History
import ImageRegion.Proofs.Generations
import ImageRegion.Proofs.Cancellation
import ImageRegion.Proofs.Storage
import ImageRegion.Proofs.Image.Safety
import ImageRegion.Proofs.Verdict
import ImageRegion.Proofs.Sampling.Parts
import ImageRegion.Proofs.Stitching
import ImageRegion.Proofs.Backing
import ImageRegion.Proofs.Registry.Refinement
import ImageRegion.Proofs.Gates
import ImageRegion.Proofs.Image.Layout
import ImageRegion.Proofs.Coverage
import ImageRegion.Proofs.Source.Simulation
import ImageRegion.Proofs.Session.Owners
import ImageRegion.Proofs.Session.Custody
import ImageRegion.Proofs.Interchange
import ImageRegion.Proofs.Image.Touched
import ImageRegion.Proofs.Locality
import ImageRegion.Proofs.Phases
import ImageRegion.Proofs.Copying
import ImageRegion.Proofs.Allotments
import ImageRegion.Proofs.Image.Turning
import ImageRegion.Proofs.Pixel.Dithering
import ImageRegion.Proofs.Writing
import ImageRegion.Proofs.Expansion
import ImageRegion.Proofs.Premultiplication
import ImageRegion.Proofs.FullSize
import ImageRegion.Proofs.Detection
import ImageRegion.Proofs.Geometry.Words
import ImageRegion.Proofs.Geometry.Intersection
import ImageRegion.Proofs.Capacity
import ImageRegion.Proofs.Sampling.Exactness
