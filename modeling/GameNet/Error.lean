import GameNet.Text.Quoted

/-!
What can go wrong: in reading a listing, in compiling it, in playing the result. Each error is a
cause; the wording of all of them is in the `message` functions.
-/

namespace GameNet

abbrev CompId := Nat

def CompId.render (c : CompId) : String := "#" ++ toString c

inductive ListingCause where
  | notJson
  | malformedTerm (text : String)
  | trailingText (text : String)
  | unexpectedFormat (value : String)
  | badRoleName (value : String)
  | badTuple (value : String)
  | badId (value : String)
  | badCount (value : String)
  | badKind (value : String)
  | notArray (list value : String)
  | badListId (list value : String)
  | badRoleTag (value : String)
  | badTerm (value : String)
  | needlessTag (id : Nat) (kind : String)
  | missingTag (id : Nat) (kind : String)
  | untagged (c : CompId)
  | duplicateId (c : CompId)
  | custom (text : String)
  deriving DecidableEq, Repr

def ListingCause.message : ListingCause → String
  | .notJson => "not a JSON text"
  | .malformedTerm text => s!"malformed term: {text}"
  | .trailingText text => s!"trailing text in term: {text}"
  | .unexpectedFormat value => s!"unexpected format: {value}"
  | .badRoleName value => s!"bad role name: {value}"
  | .badTuple value => s!"bad component tuple: {value}"
  | .badId value => s!"bad id: {value}"
  | .badCount value => s!"bad count: {value}"
  | .badKind value => s!"bad kind: {value}"
  | .notArray list value => s!"{list} should be an array: {value}"
  | .badListId list value => s!"bad id in {list}: {value}"
  | .badRoleTag value => s!"bad role tag: {value}"
  | .badTerm value => s!"bad term: {value}"
  | .needlessTag id kind => s!"component {id} has kind {kind} but a role tag"
  | .missingTag id kind => s!"component {id} has kind {kind} but no role tag"
  | .untagged c => s!"proposition {c.render} has no role tag"
  | .duplicateId c => s!"duplicate component id {c.render}"
  | .custom text => text

inductive StructuralCause where
  | baseShape
  | argumentShape (tag head : String)
  | unknownRole (term : String)
  | goalNotInteger
  | goalOutOfRange (value : Nat)
  | notBareAtom (tag : String)
  | outputMissing (c : CompId)
  | outputUnanswered (c : CompId)
  | inputMissing (c : CompId)
  | inputUnanswered (c : CompId)
  | baseNotDriven
  | transitionManyInputs
  | transitionShared
  | transitionIdle
  | inputDriven
  | secondTerminal
  | secondInit
  | duplicateInput
  | duplicatePairing
  | legalInputs
  | transitionOutputs
  | custom (text : String)
  deriving DecidableEq, Repr

def StructuralCause.message : StructuralCause → String
  | .baseShape => "base should look like (true X)"
  | .argumentShape tag head => s!"{tag} should look like ({head} R X)"
  | .unknownRole term => s!"unknown role {term}"
  | .goalNotInteger => "goal value should be an integer"
  | .goalOutOfRange value => s!"goal value {value} out of range"
  | .notBareAtom tag => s!"{tag} should be the bare atom {tag}"
  | .outputMissing c => s!"output {c.render} does not exist"
  | .outputUnanswered c => s!"output {c.render} does not list it as an input"
  | .inputMissing c => s!"input {c.render} does not exist"
  | .inputUnanswered c => s!"input {c.render} does not list it as an output"
  | .baseNotDriven => "base must have exactly one input, a transition"
  | .transitionManyInputs => "transition has more than one input"
  | .transitionShared => "transition drives two bases"
  | .transitionIdle => "transition does not drive a base"
  | .inputDriven => "input proposition has inputs"
  | .secondTerminal => "more than one terminal proposition"
  | .secondInit => "more than one init proposition"
  | .duplicateInput => "duplicate input proposition for the same move"
  | .duplicatePairing => "duplicate legal/input pairing"
  | .legalInputs => "legal with outputs must have exactly one input"
  | .transitionOutputs => "transition should feed exactly its base"
  | .custom text => text

inductive InvariantCause where
  | initialStateDerived
  | foldedInputs
  | forcedValue
  | constantDriven
  | idGaps
  | unsetCycle
  | unsetLeaf
  | propositionManyInputs
  | notManyInputs
  | transitionManyInputs
  | badOrder
  | orderMisses
  | tooManyInputs
  | sourceDriven
  | outputGone (c : CompId)
  | outputUnanswered (c : CompId)
  | inputGone (c : CompId)
  | inputUnanswered (c : CompId)
  | countRange (count : Int) (most : Nat)
  | andThresholds
  | notSeveralInputs
  | overCap (inputs cap : Nat)
  | basesUnaligned
  | baseGone
  | transitionGone
  | baseManyInputs
  | transitionAstray
  | moveGone
  | legalsUnaligned (role : String) (legals inputs : Nat)
  | legalGone
  | legalOutputs
  | legalUnpaired
  | custom (text : String)
  deriving DecidableEq, Repr

def InvariantCause.message : InvariantCause → String
  | .initialStateDerived => "initial state was already derived"
  | .foldedInputs => "constant propagation of a component with inputs"
  | .forcedValue => "gate forced to a value it does not have"
  | .constantDriven => "constant with an input"
  | .idGaps => "component ids have gaps"
  | .unsetCycle => "cycle through a component with no count"
  | .unsetLeaf => "leaf component has no count"
  | .propositionManyInputs => "proposition with more than one input"
  | .notManyInputs => "NOT with more than one input"
  | .transitionManyInputs => "transition with more than one input"
  | .badOrder => "bad renumbering order"
  | .orderMisses => "component missing from renumbering order"
  | .tooManyInputs => "too many inputs"
  | .sourceDriven => "network input has inputs"
  | .outputGone c => s!"output {c.render} is gone"
  | .outputUnanswered c => s!"output {c.render} does not list it as an input"
  | .inputGone c => s!"input {c.render} is gone"
  | .inputUnanswered c => s!"input {c.render} does not list it as an output"
  | .countRange count most => s!"count {count} outside [0, {most}]"
  | .andThresholds => "AND thresholds do not match its fan-in"
  | .notSeveralInputs => "NOT with several inputs"
  | .overCap inputs cap => s!"fan-in {inputs} over the cap of {cap}"
  | .basesUnaligned => "bases and transitions are not aligned"
  | .baseGone => "base proposition is gone"
  | .transitionGone => "transition is gone"
  | .baseManyInputs => "base with more than one input"
  | .transitionAstray => "transition does not point at its base"
  | .moveGone => "input proposition is gone"
  | .legalsUnaligned role legals inputs => s!"role {role} has {legals} legals but {inputs} inputs"
  | .legalGone => "legal is gone"
  | .legalOutputs => "legal with outputs"
  | .legalUnpaired => "legal is not paired with its input"
  | .custom text => text

structure Site where
  id : CompId
  kind : String
  term : Option String
  deriving DecidableEq, Repr

def Site.message (s : Site) : String :=
  let term := s.term.elim "" (" " ++ ·)
  s!"component {s.id.render} ({s.kind}{term})"

inductive CompileError where
  | listing (cause : ListingCause)
  | structural (site : Site) (cause : StructuralCause)
  | noTerminal
  | invariant (site : Site) (cause : InvariantCause)
  | countMismatch (id : CompId) (kind : String) (stored computed : Int)
  | schedule (site : Site)
  | noControl
  | splitRejected (reason : String)
  deriving DecidableEq, Repr

namespace CompileError

def message : CompileError → String
  | .listing cause => s!"malformed listing: {cause.message}"
  | .structural site cause => s!"structural error at {site.message}: {cause.message}"
  | .noTerminal => "network has no terminal proposition"
  | .invariant site cause => s!"invariant violated at {site.message}: {cause.message}"
  | .countMismatch id kind stored computed =>
    s!"count mismatch at component {id.render} ({kind}): stored {stored}, recomputed {computed}"
  | .schedule site => s!"unschedulable {site.message}"
  | .noControl => "no control bases found"
  | .splitRejected reason => s!"control split rejected: {reason}"

def isRecoverable : CompileError → Bool
  | .splitRejected _ | .noControl => true
  | _ => false

end CompileError

inductive Disagreement where
  | roleCount (a b : Nat)
  | state (a b : List String)
  | terminal (a b : Bool)
  | legals (role : Nat) (a b : List String)
  | goal (role : Nat) (a b : Option Nat)
  | custom (text : String)
  deriving DecidableEq, Repr

def Disagreement.message : Disagreement → String
  | .roleCount a b => s!"{a} roles vs {b}"
  | .state a b => s!"state {texts a} vs {texts b}"
  | .terminal a b => s!"terminal {a} vs {b}"
  | .legals role a b => s!"legals for role {role}: {texts a} vs {texts b}"
  | .goal role a b => s!"goal for role {role}: {value a} vs {value b}"
  | .custom text => text
where
  texts (items : List String) : String := Text.bracketed (items.map Text.quoted)
  value (goal : Option Nat) : String := Text.optional (goal.map toString)

inductive PlayError where
  | noActiveNetwork
  | ambiguousNetwork (bases : List CompId)
  | unknownMove (role : Nat) (move : String)
  | stateSize (expected got : Nat)
  | divergence (depth : Nat) (what : Disagreement)
  deriving DecidableEq, Repr

def PlayError.message : PlayError → String
  | .noActiveNetwork => "no control network is active for the current state"
  | .ambiguousNetwork bases =>
    let list := Text.bracketed (bases.map fun b => "CID(" ++ toString b ++ ")")
    s!"more than one control network is active: {list}"
  | .unknownMove role move => s!"role {role} has no legal move {move}"
  | .stateSize expected got => s!"state has {got} bases but the network has {expected}"
  | .divergence depth what => s!"networks diverged at depth {depth}: {what.message}"

def CompileError.ofPlay (e : PlayError) : CompileError := .splitRejected e.message

/-- A broken promise of the caller: the computation has no answer at all. -/
inductive Crash where
  | noComponent (c : CompId)
  | danglingReference (c : CompId)
  | lostBase (c : CompId)
  | unpairedLegal (c : CompId)
  | bitOutOfRange (bit size : Nat)
  | indexOutOfRange
  | workerLost
  /-- a loop was stopped before it came to its end -/
  | exhausted
  deriving DecidableEq, Repr

def Crash.message? : Crash → Option String
  | .noComponent c => some s!"no component {c.render}"
  | .danglingReference c => some s!"dangling reference to {c.render}"
  | .lostBase c => some s!"lost base {c.render}"
  | .unpairedLegal c => some s!"unpaired legal {c.render}"
  | .bitOutOfRange bit size => some s!"bit {bit} out of range for a {size}-bit state"
  | .indexOutOfRange | .workerLost | .exhausted => none

inductive Fault where
  | crash (c : Crash)
  | compile (e : CompileError)
  | play (e : PlayError)
  deriving DecidableEq, Repr

def Fault.asCompile : Fault → Fault
  | .play e => .compile (.ofPlay e)
  | f => f

abbrev Checked := Except Fault

end GameNet
