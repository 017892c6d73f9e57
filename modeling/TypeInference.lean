import TypeInference.Main
import TypeInference.Proofs.Order
import TypeInference.Proofs.Visibility
import TypeInference.Proofs.Documents
import TypeInference.Proofs.Annotations
import TypeInference.Proofs.ScopeCopies
import TypeInference.Proofs.Stalls
import TypeInference.Proofs.Unification
import TypeInference.Proofs.Conformance
import TypeInference.Proofs.Unions
import TypeInference.Proofs.FailureTraces
import TypeInference.Proofs.LeafOrder
import TypeInference.Proofs.SourceText
