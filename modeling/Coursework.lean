import Coursework.Malloc.Runs
import Coursework.Malloc.View
import Coursework.Malloc.Safety
import Coursework.Malloc.Lockstep
import Coursework.Malloc.Release
import Coursework.Malloc.Confluence
import Coursework.Malloc.Wraparound
import Coursework.Malloc.RoundTrip
import Coursework.Malloc.Growth
import Coursework.Malloc.ListBounds
import Coursework.Malloc.HeapSize
import Coursework.Malloc.FreeSequence
import Coursework.Malloc.Waste
import Coursework.Malloc.BoundaryTags
import Coursework.Driver.Acceptance
import Coursework.Malloc.Footprint
import Coursework.Driver.Pipeline
import Coursework.MatMat.Shapes
import Coursework.Cooling.Analytical
import Coursework.Timing.Fcyc
