import Longfellow.Lib.Exec
import Longfellow.Lib.Multilinear
import Longfellow.Lib.Bytes
import Longfellow.Lib.Morton
import Longfellow.Fields
import Longfellow.Sumcheck.Bind
import Longfellow.Sumcheck.Bindeq
import Longfellow.Sumcheck.Sparse
import Longfellow.Sumcheck.Denote
import Longfellow.Sumcheck.Reduce
import Longfellow.Circuit
import Longfellow.Evaluation
import Longfellow.Transcript
import Longfellow.Messages
import Longfellow.Satisfaction
import Longfellow.Witness
import Longfellow.Sumcheck.Constraints
import Longfellow.Sumcheck.Protocol
import Longfellow.Sumcheck.Bounds
import Longfellow.Sumcheck.Script
import Longfellow.Sumcheck.Run
import Longfellow.Sumcheck.Verifier
import Longfellow.Sumcheck.Symbolic
import Longfellow.Sumcheck.PlainVerifier
import Longfellow.Fields.FieldP128
import Longfellow.Sample
import Longfellow.Sumcheck.Equivalence
import Longfellow.Sumcheck.Agreement
import Longfellow.Sumcheck.Honest
import Longfellow.Sumcheck.Prover
import Longfellow.Sumcheck.Shortcut
import Longfellow.Sumcheck.DenseArray
import Longfellow.Sumcheck.Pads
import Longfellow.Sumcheck.WitnessLayout
import Longfellow.Sumcheck.Completeness
import Longfellow.Lib.ByteStream
import Longfellow.Transcript.Runs
import Longfellow.Lib.HeapTree
import Longfellow.Ligero.Commitment
import Longfellow.Ligero.Proof
import Longfellow.ZkOneCircuit.Prover
import Longfellow.ZkOneCircuit.Unsatisfied
import Longfellow.Ligero.Merkle
import Longfellow.Ligero.Inclusion
import Longfellow.Ligero.ProofNodes
import Longfellow.Lib.ReedSolomon
import Longfellow.Ligero.Layout
import Longfellow.Ligero.Tableau
import Longfellow.Ligero.Prover
import Longfellow.Ligero.Hiding
import Longfellow.Lib.Format
import Longfellow.Lib.Logged
import Longfellow.Codec
import Longfellow.Codec.RoundTrip
import Longfellow.Codec.Deltas
import Longfellow.Codec.Canonical
import Longfellow.CircuitId
import Longfellow.Lib.Grammar
import Longfellow.Nymauth.Lfc2
import Longfellow.Nymauth.Serialization
import Longfellow.Fields.FieldP256
import Longfellow.Nymauth.Reading
import Longfellow.Nymauth.Conversion
import Longfellow.Fields.Field2128
import Longfellow.MdocZk.Sha256
import Longfellow.MdocZk.Cbor
import Longfellow.MdocZk.Ec
import Longfellow.MdocZk.Sec1
import Longfellow.MdocZk.Projective
import Longfellow.MdocZk.Signature
import Longfellow.MdocZk.MultiScalar
import Longfellow.MdocZk.Layout
import Longfellow.MdocZk.Statements
import Longfellow.MdocZk.Encoding
import Longfellow.MdocZk.Binding
import Longfellow.MdocZk.Decoder
import Longfellow.MdocZk.Items
import Longfellow.Lib.StreamItem
import Longfellow.MdocZk.Headers
import Longfellow.MdocZk.Skip
import Longfellow.MdocZk.Attributes
import Longfellow.MdocZk.IssuerSigned
import Longfellow.MdocZk.Search
import Longfellow.MdocZk.Witnessed
import Longfellow.MdocZk.Standard
import Longfellow.Ligero.InnerProduct
import Longfellow.Lib.Ntt
import Longfellow.Fields.Ntt
import Longfellow.Lib.Primality
import Longfellow.Fields.RootsOfUnity
import Longfellow.Fields.QuadraticExtension
import Longfellow.Lib.Infallible
import Longfellow.Lib.Slots
import Longfellow.Lib.Sha2
import Longfellow.Lib.CubicRoots
import Longfellow.Lib.ShortWeierstrass
import Longfellow.Fields.P256
import Longfellow.Lib.Ladder
import Longfellow.Ecdsa
import Longfellow.Lib.IntegerPoints
import Longfellow.Fields.ExtendP
import Longfellow.Fields.PrimeExtension
import Longfellow.Lib.BinaryPolynomial
import Longfellow.Fields.Field2128.Galois
import Longfellow.Lib.Irreducibility
import Longfellow.Fields.Field2128.Arithmetic
import Longfellow.Lib.AdditiveFft
import Longfellow.Fields.Field2128.Constants
import Longfellow.Fields.Field2128.Subfield
import Longfellow.Fields.Field2128.Extend
import Longfellow.Lib.BidirectionalFft
import Longfellow.Fields.Field2128.Fft
import Longfellow.Fields.Field2128.Interpolate
import Longfellow.Sumcheck.ProofCodec
import Longfellow.Lib.PartialShuffle
import Longfellow.Transcript.Sampling
import Longfellow.Invariants
import Longfellow.Sumcheck.BindingRounds
import Longfellow.Lib.DataItem
import Longfellow.Nymauth.Sha
import Longfellow.Nymauth.CborGrammar
import Longfellow.Nymauth.Profile
import Longfellow.Nymauth.Ecdsa
import Longfellow.Nymauth.Verification
import Longfellow.Nymauth.Challenge
import Longfellow.Ligero.ProofCodec
import Longfellow.Lib.Codewords
import Longfellow.Lib.Proximity
import Longfellow.Fields.Interpolation
import Longfellow.Ligero.Verifier
import Longfellow.Ligero.Tests
import Longfellow.Ligero.Codewords
import Longfellow.Ligero.Region
import Longfellow.Ligero.Opening
import Longfellow.Ligero.Completeness
import Longfellow.Ligero.Revealed
import Longfellow.Ligero.Binding
import Longfellow.Ligero.Soundness
import Longfellow.ZkOneCircuit.Verifier
import Longfellow.ZkOneCircuit.Completeness
import Longfellow.Lib.Totality
import Longfellow.Ligero.Totality
import Longfellow.ZkOneCircuit.Totality
import Longfellow.Lib.RoundPolynomials
import Longfellow.Sumcheck.Views
