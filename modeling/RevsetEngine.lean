import RevsetEngine.Index
import RevsetEngine.Revset
import RevsetEngine.Evaluate
import RevsetEngine.Probe
import RevsetEngine.SetAlgebra
import RevsetEngine.Latest
import RevsetEngine.Sweep
import RevsetEngine.Evaluation
import RevsetEngine.DagQueries
import RevsetEngine.Iterator
import RevsetEngine.HexPrefix
import RevsetEngine.IdIndex
import RevsetEngine.RevsetImpl
import RevsetEngine.Safety
import RevsetEngine.Laws
import RevsetEngine.Semantics
import RevsetEngine.DagLaws
