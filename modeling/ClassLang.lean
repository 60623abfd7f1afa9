import ClassLang.Diagnostic
import ClassLang.Execution.Evaluator
import ClassLang.IR.Script
import ClassLang.Interner
import ClassLang.Lowering.Generate
import ClassLang.Options
import ClassLang.Proofs.Lowering.StoredFields
import ClassLang.Proofs.Pool.Representation
import ClassLang.Proofs.Pool.TypeEquality
import ClassLang.Proofs.Session.Bookkeeping
import ClassLang.Proofs.Session.CaseNames
import ClassLang.Proofs.Session.Forwarding
import ClassLang.Proofs.Session.Initialization
import ClassLang.Proofs.Session.InternalErrors
import ClassLang.Proofs.Session.LinkNames
import ClassLang.Proofs.Session.Memoization
import ClassLang.Proofs.Session.Packages
import ClassLang.Proofs.Session.PassedArguments
import ClassLang.Proofs.Session.Records
import ClassLang.Proofs.Session.RuntimeTypes
import ClassLang.Proofs.Session.Storage
import ClassLang.Proofs.Typing.ArgumentErrors
import ClassLang.Proofs.Session.DeclarationOrder
import ClassLang.Proofs.Typing.DeferredOperators
import ClassLang.Proofs.Typing.WalkNumbers
import ClassLang.Source.Files
import ClassLang.Proofs.Lowering.Following
import ClassLang.Proofs.Lowering.FollowingBodies
import ClassLang.Proofs.Lowering.FollowingModule
import ClassLang.Proofs.Pool.Updates
import ClassLang.Proofs.Pool.GroundTypes
import ClassLang.Proofs.Session.TypeTerms
import ClassLang.Proofs.Typing.MethodLookup
import ClassLang.Proofs.Session.Layouts
import ClassLang.Proofs.SharedInterner
import ClassLang.Proofs.IR.InsertionPoint
import ClassLang.Proofs.Session.Sharing
import ClassLang.Proofs.Execution.Arithmetic
import ClassLang.Proofs.Execution.Stepping
import ClassLang.Proofs.Lowering.Running
import ClassLang.Proofs.Lowering.RunningBlocks
import ClassLang.Proofs.Lowering.RunningCalls
import ClassLang.Proofs.Lowering.RunningFunctions
import ClassLang.Proofs.Lowering.RunningModule
import ClassLang.Proofs.Session.Semantics
