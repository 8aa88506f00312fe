import Cornus.Auth.Authenticate
import Cornus.Lib.Attempt

/-!
# Token exchange

A token of an operator's key or of another issuer is traded for a credential of
this installation.  The scope map decides what the credential may reach, and a
requested scope may narrow it.  Presented directly, a token of an operator's key
that names a scope of its own is judged by that scope and not by the map, so the
exchange widens what such a token reaches wherever the map grants more.
-/

namespace Cornus.Auth

open Lib List Option

/-- The form of an exchange request; `malformed` is a body that does not
parse. -/
structure ExchangeForm where
  isPost : Bool := true
  malformed : Bool := false
  grantType : String := "urn:ietf:params:oauth:grant-type:token-exchange"
  subjectToken : String
  subjectTokenType : String := "urn:ietf:params:oauth:token-type:jwt"
  (actorToken requestedTokenType scope : String := "")

/-- The reasons for which an exchange is refused. -/
inductive ExchangeError where
  | method
  | malformed
  | grantType
  | noSubjectToken
  | noSubjectTokenType
  | subjectTokenType
  | actorToken
  | requestedTokenType
  | unverified
  | noRule
  | mappedScope (err : GrantError)
  | notIssuable (rule : RuleLabel) (access : Access)
  | requestedScope (err : GrantError)
  | requestedNotIssuable (scope : String)
  | exceeds (requested mapped : String)
  deriving DecidableEq

/-- The identifiers of RFC 8693 that the handler reads. -/
def grantTypeTokenExchange : String :=
  "urn:ietf:params:oauth:grant-type:token-exchange"

def tokenTypeAccessToken : String :=
  "urn:ietf:params:oauth:token-type:access_token"

def tokenTypeJwt : String := "urn:ietf:params:oauth:token-type:jwt"

def tokenTypeIdToken : String := "urn:ietf:params:oauth:token-type:id_token"

/-- What an exchanged credential may be scoped to. -/
def issuableAccess : Access → Bool
  | .full | .registryPush | .registryPull => true
  | _ => false

section Exchange

variable {Num : Type} (env : Env Num) (auth : Authenticator Num) (sign : Claims → String)
  (token : String)

/-- The subject token must be one of an external issuer. -/
def verifyExternalSubject : Option (String × Object Num) :=
  verifyOperator env auth token <|> verifyJwks env auth token

/-- The claims of the credential that is issued. -/
def exchangeClaims (subject scope : String) : Claims where
  subject
  issuer := exchangeIssuer
  audience := [exchangeAudience]
  expiry := some (env.now + 3600)
  notBefore := some env.now
  issuedAt := some env.now
  scope

variable (form : ExchangeForm)

/-- The subject token, after the checks of the form. -/
def checkForm : Except ExchangeError String :=
  let token := trimSpace form.subjectToken
  if form.isPost = false then .error .method
  else if form.malformed then .error .malformed
  else if form.grantType ≠ grantTypeTokenExchange then .error .grantType
  else if token = "" then .error .noSubjectToken
  else if form.subjectTokenType = "" then .error .noSubjectTokenType
  else if ¬[tokenTypeJwt, tokenTypeAccessToken, tokenTypeIdToken].contains
      form.subjectTokenType then
    .error .subjectTokenType
  else if form.actorToken ≠ "" then .error .actorToken
  else if form.requestedTokenType ≠ "" ∧
      form.requestedTokenType ≠ tokenTypeAccessToken ∧ form.requestedTokenType ≠ tokenTypeJwt then
    .error .requestedTokenType
  else .ok token

/-- The asked scope, where the mapped one contains it. -/
def narrowScope (mappedScope : String) (mapped : Access) (requested : String) :
    Except ExchangeError String :=
  if requested = "" then .ok mappedScope
  else
    match grant requested with
    | .error err => .error (.requestedScope err)
    | .ok want =>
      if issuableAccess want = false then
        .error (.requestedNotIssuable requested)
      else if contains mapped want = false then
        .error (.exceeds requested mappedScope)
      else .ok requested

/-- `handleTokenExchange`: the issued credential and its scope. -/
def handleTokenExchange : Except ExchangeError (String × String) :=
  match checkForm form with
  | .error err => .error err
  | .ok token =>
    match verifyExternalSubject env auth token with
    | none => .error .unverified
    | some (subject, claims) =>
      match matchClaims env.floats auth.scopeMap claims with
      | none => .error .noRule
      | some (mappedScope, rule) =>
        match grant mappedScope with
        | .error err => .error (.mappedScope err)
        | .ok mapped =>
          if issuableAccess mapped = false then
            .error (.notIssuable rule mapped)
          else
            (narrowScope mappedScope mapped (trimSpace form.scope)).map fun issued =>
                (sign (exchangeClaims env subject issued), issued)

/-- What the token library does with a credential that is issued here: the
verifiers of the installation's key read its claims back, a fresh one passes the
check for the exchange's issuer and for no other, and it is neither of the static
tokens. -/
structure Signs : Prop where
  internal : ∀ verifier ∈ auth.internal, ∀ subject scope,
    (verifier (sign (exchangeClaims env subject scope))).bind
      env.decodeClaims = some (exchangeClaims env subject scope)
  sshJwt : ∀ verifier ∈ auth.sshJwt, ∀ subject scope,
    (verifier (sign (exchangeClaims env subject scope))).bind
      env.decodeClaims = some (exchangeClaims env subject scope)
  exchangeJwt : ∃ verifier, auth.exchangeJwt = some verifier ∧
    ∀ subject scope, (verifier (sign (exchangeClaims env subject scope))).bind
      env.decodeClaims = some (exchangeClaims env subject scope)
  fresh : ∀ subject scope, env.validateWithLeeway (exchangeClaims env subject scope)
    ⟨exchangeIssuer, [exchangeAudience]⟩ = true
  foreign : ∀ subject scope expected, expected.issuer ≠ "" → expected.issuer ≠ exchangeIssuer →
    env.validateWithLeeway (exchangeClaims env subject scope) expected = false
  notStatic : ∀ subject scope, sign (exchangeClaims env subject scope) ≠ auth.staticToken
  notCaretaker : ∀ subject scope, sign (exchangeClaims env subject scope) ≠ auth.caretakerToken

/-- The request carries the token, as a bearer token or as a password. -/
def Carries (request : Request) (allowBasic : Bool) (token : String) : Prop :=
  request.identity = "" ∧ requestToken request allowBasic = some token

/-- What the credential of an exchange reaches, its subject token reaches. -/
def NoAmplification : Prop :=
  ∀ credential scope, handleTokenExchange env auth sign form = .ok (credential, scope) →
    ∀ endpoint request allowBasic, Carries request allowBasic credential →
      (authenticate env auth request endpoint allowBasic).ok = true →
      ∀ direct directBasic,
        Carries direct directBasic (trimSpace form.subjectToken) →
        (authenticate env auth direct endpoint directBasic).ok = true

/-- The scope in a token that decides when it is presented directly. -/
def ownScope : Option String :=
  match verifyMinted env auth token with
  | some (_, _, scope) => some scope
  | none =>
    match verifyOperator env auth token with
    | some (_, claims) =>
      match grant (claimString claims "scope") with
      | .ok _ => some (claimString claims "scope")
      | .error _ => none
    | none => none

/-- Wherever the map grants a token an access that can be issued, the token is
the full static token, or it is not the caretaker token and a scope of its own
that decides reaches as much. -/
def OwnScopeCovers : Prop :=
  ∀ subject claims scope rule access,
    verifyExternalSubject env auth token = some (subject, claims) →
    matchClaims env.floats auth.scopeMap claims = some (scope, rule) →
    grant scope = .ok access → issuableAccess access = true →
    (auth.staticToken ≠ "" ∧ token = auth.staticToken) ∨
      ¬(auth.caretakerToken ≠ "" ∧ token = auth.caretakerToken) ∧
        ∀ own ∈ ownScope env auth token, ∀ endpoint,
          allows access endpoint = true → reaches own endpoint = true

end Exchange

section Reach

variable {Num : Type} {env : Env Num}

theorem Carries.authenticate (carries : Carries request allowBasic token) (endpoint : Endpoint) :
    authenticate env auth request endpoint allowBasic =
      authenticateToken env auth endpoint token := by
  simp only [Auth.authenticate, carries.1, carries.2, ne_eq, not_true_eq_false, if_false]

variable {subject scope : String}

theorem scopedResult_ok {internal : Bool} : (scopedResult endpoint subject scope internal).ok =
      reaches scope endpoint := by
  rw [scopedResult, reaches]
  cases grant scope with
  | error err => rfl
  | ok access =>
    cases allowed : allows access endpoint with
    | true => simp [allowed]
    | false => simp [allowed]

theorem externalResult_ok
    (mapped : matchClaims env.floats auth.scopeMap claims = some (scope, rule)) :
    (externalResult env auth endpoint subject claims).ok = reaches scope endpoint := by
  simp only [externalResult, mapped, reaches]
  cases grant scope with
  | error err => rfl
  | ok access =>
    cases allowed : allows access endpoint with
    | true => simp [allowed]
    | false => simp [allowed]

theorem verifyFixedJwt_of_decoded {claims : Claims}
    (decoded : (verifier token).bind env.decodeClaims = some claims) :
    verifyFixedJwt env verifier token issuer audience =
      if validClaimsFor env claims issuer audience then
        some (claims.subject, claims.scope)
      else none := by
  obtain ⟨payload, read, shown⟩ := bind_eq_some_iff.mp decoded
  simp only [verifyFixedJwt, verifyClaims, read, shown]
  split <;> rfl

theorem Signs.bind_verifyFixedJwt_eq_none (signs : Signs env auth sign)
    {found : Option (Verifier Num)} (issuer audience : String) (some_ : issuer ≠ "")
    (other : issuer ≠ exchangeIssuer) (decoded : ∀ verifier ∈ found, ∀ subject scope,
      (verifier (sign (exchangeClaims env subject scope))).bind env.decodeClaims =
        some (exchangeClaims env subject scope)) :
    (found.bind fun verifier => (verifyFixedJwt env verifier
      (sign (exchangeClaims env subject scope)) issuer audience).map wrap) = none := by
  apply bind_eq_none_iff.mpr
  intro verifier mem
  have refused : validClaimsFor env (exchangeClaims env subject scope) issuer audience = false := by
    rw [validClaimsFor, signs.foreign subject scope _ some_ other, Bool.and_false]
  rw [verifyFixedJwt_of_decoded (decoded verifier mem subject scope), refused]
  rfl

theorem Signs.credential_ok (signs : Signs env auth sign) (endpoint : Endpoint)
    (subject scope : String) :
    (authenticateToken env auth endpoint (sign (exchangeClaims env subject scope))).ok =
      reaches scope endpoint := by
  obtain ⟨verifier, present, decodes⟩ := signs.exchangeJwt
  have ownIssuer : validClaimsFor env (exchangeClaims env subject scope)
      exchangeIssuer exchangeAudience = true := signs.fresh subject scope
  have minted : verifyMinted env auth (sign (exchangeClaims env subject scope)) =
      some (false, subject, scope) := by
    rw [verifyMinted,
      signs.bind_verifyFixedJwt_eq_none internalIssuer _ (by decide) (by decide) signs.internal,
      signs.bind_verifyFixedJwt_eq_none sshKeyIssuer _ (by decide) (by decide) signs.sshJwt,
      present, bind_some, verifyFixedJwt_of_decoded (decodes subject scope), ownIssuer]
    rfl
  have notStatic := signs.notStatic subject scope
  have notCaretaker := signs.notCaretaker subject scope
  simp only [authenticateToken, notStatic, notCaretaker, and_false, if_false,
    authenticateJwt, minted]
  exact scopedResult_ok

/-- A token that is presented directly reaches what its own deciding scope
reaches, or without one what the map grants. -/
theorem authenticateJwt_ok (endpoint : Endpoint)
    (verified : verifyExternalSubject env auth token = some (subject, claims))
    (mapped : matchClaims env.floats auth.scopeMap claims = some (scope, rule)) :
    (authenticateJwt env auth endpoint token).ok = match ownScope env auth token with
      | some own => reaches own endpoint
      | none => reaches scope endpoint := by
  rw [verifyExternalSubject] at verified
  simp only [authenticateJwt, ownScope]
  cases verifyMinted env auth token with
  | some minted => exact scopedResult_ok
  | none =>
    cases operator : verifyOperator env auth token with
    | some found =>
      rw [operator] at verified
      cases verified
      simp only
      cases grant (claimString claims "scope") with
      | ok access => exact scopedResult_ok
      | error err => exact externalResult_ok mapped
    | none =>
      rw [operator] at verified
      have external : verifyJwks env auth token = some (subject, claims) := verified
      simp only [external]
      exact externalResult_ok mapped

theorem narrowScope_reaches (granted : grant mappedScope = .ok mapped)
    (narrowed : narrowScope mappedScope mapped requested = .ok issued)
    (reached : reaches issued endpoint = true) : allows mapped endpoint = true := by
  rw [narrowScope] at narrowed
  split at narrowed
  · cases narrowed
    simpa [reaches, granted] using reached
  · split at narrowed
    · cases narrowed
    rename_i want wanted
    split at narrowed
    · cases narrowed
    split at narrowed <;> cases narrowed
    rename_i within
    apply contains_iff.mp (Bool.eq_true_of_not_eq_false within)
    simpa [reaches, wanted] using reached

theorem checkForm_ok (accepted : checkForm form = .ok token) :
    token = trimSpace form.subjectToken ∧ token ≠ "" := by
  have passes : ∀ {check : Prop} [Decidable check] {err : ExchangeError}
      {rest : Except ExchangeError String}, (if check then .error err else rest) = .ok token →
        ¬check ∧ rest = .ok token := by
    intro check _ err rest whole
    split at whole
    · cases whole
    · exact ⟨by assumption, whole⟩
  rw [checkForm] at accepted
  obtain ⟨-, accepted⟩ := passes accepted
  obtain ⟨-, accepted⟩ := passes accepted
  obtain ⟨-, accepted⟩ := passes accepted
  obtain ⟨some_, accepted⟩ := passes accepted
  obtain ⟨-, accepted⟩ := passes accepted
  obtain ⟨-, accepted⟩ := passes accepted
  obtain ⟨-, accepted⟩ := passes accepted
  obtain ⟨-, accepted⟩ := passes accepted
  cases accepted
  exact ⟨rfl, some_⟩

theorem handleTokenExchange_ok
    (exchanged : handleTokenExchange env auth sign form = .ok (credential, issued)) :
    trimSpace form.subjectToken ≠ "" ∧ ∃ subject claims mappedScope rule mapped,
        verifyExternalSubject env auth (trimSpace form.subjectToken) = some (subject, claims) ∧
        matchClaims env.floats auth.scopeMap claims = some (mappedScope, rule) ∧
        grant mappedScope = .ok mapped ∧ issuableAccess mapped = true ∧
        narrowScope mappedScope mapped (trimSpace form.scope) = .ok issued ∧
        credential = sign (exchangeClaims env subject issued) := by
  rw [handleTokenExchange] at exchanged
  split at exchanged
  · cases exchanged
  rename_i token accepted
  obtain ⟨rfl, some_⟩ := checkForm_ok accepted
  refine ⟨some_, ?_⟩
  split at exchanged
  · cases exchanged
  rename_i subject claims verified
  split at exchanged
  · cases exchanged
  rename_i mappedScope rule mapped
  split at exchanged
  · cases exchanged
  rename_i access granted
  split at exchanged
  · cases exchanged
  rename_i issuable
  obtain ⟨scope, narrowed, exchanged⟩ := exists_of_map_ok exchanged
  cases exchanged
  exact ⟨subject, claims, mappedScope, rule, access, verified,
    mapped, granted, Bool.eq_true_of_not_eq_false issuable, narrowed, rfl⟩

/-- For every subject token, no exchange of it amplifies exactly if its own
deciding scope covers what the map grants it. -/
theorem noAmplification_iff (env : Env Num) (auth : Authenticator Num)
    (sign : Claims → String) (signs : Signs env auth sign) (subjectToken : String) :
    (∀ form : ExchangeForm, form.subjectToken = subjectToken → NoAmplification env auth sign form) ↔
      (trimSpace subjectToken ≠ "" → OwnScopeCovers env auth (trimSpace subjectToken)) := by
  constructor
  · intro never some_ subject claims scope rule access verified mapped granted issuable
    -- Without a requested scope the exchange issues what the map grants.
    have exchanged : handleTokenExchange env auth sign { subjectToken } = .ok
          (sign (exchangeClaims env subject scope), scope) := by
      have accepted : checkForm { subjectToken } = .ok (trimSpace subjectToken) := by
        simp only [checkForm, some_]
        rfl
      have whole : narrowScope scope access (trimSpace "") = .ok scope := rfl
      simp only [handleTokenExchange, accepted, verified, mapped, granted, issuable]
      rw [whole]
      rfl
    have direct : ∀ endpoint, allows access endpoint = true →
        (authenticateToken env auth endpoint (trimSpace subjectToken)).ok = true := by
      intro endpoint allowed
      have carried : Carries { bearer := some (sign (exchangeClaims env subject
          scope)) } false (sign (exchangeClaims env subject scope)) :=
        ⟨rfl, rfl⟩
      have presented : Carries { bearer := some (trimSpace subjectToken) }
          false (trimSpace subjectToken) := ⟨rfl, rfl⟩
      have reached := never { subjectToken } rfl _ _ exchanged endpoint _ _ carried (by
          rw [carried.authenticate, signs.credential_ok, reaches, granted]
          exact allowed) _ _ presented
      rwa [presented.authenticate] at reached
    by_cases full : auth.staticToken ≠ "" ∧ trimSpace subjectToken = auth.staticToken
    · exact .inl full
    have notCaretaker : ¬(auth.caretakerToken ≠ "" ∧
        trimSpace subjectToken = auth.caretakerToken) := by
      intro caretaker
      have pulls : allows access .registryPull = true := by
        cases access <;> first | rfl | cases issuable
      have reached := direct .registryPull pulls
      rw [authenticateToken, if_neg full, if_pos caretaker] at reached
      cases reached
    refine .inr ⟨notCaretaker, ?_⟩
    intro own deciding endpoint allowed
    have reached := direct endpoint allowed
    rw [authenticateToken, if_neg full, if_neg notCaretaker,
      authenticateJwt_ok endpoint verified mapped, mem_def.mp deciding] at reached
    exact reached
  · intro covers form same credential issued exchanged endpoint request
      allowBasic carried accepted presented framing presents
    obtain ⟨some_, subject, claims, mappedScope, rule, mapped, verified, found,
      granted, issuable, narrowed, rfl⟩ := handleTokenExchange_ok exchanged
    rw [carried.authenticate, signs.credential_ok] at accepted
    have allowed := narrowScope_reaches granted narrowed accepted
    rw [presents.authenticate, authenticateToken]
    rw [same] at some_ verified ⊢
    rcases covers some_ subject claims mappedScope rule mapped verified found
      granted issuable with full | ⟨notCaretaker, own⟩
    · rw [if_pos full]
    · rw [if_neg notCaretaker]
      split
      · rfl
      rw [authenticateJwt_ok endpoint verified found]
      cases deciding : ownScope env auth (trimSpace subjectToken) with
      | none =>
        simp only [reaches, granted]
        exact allowed
      | some scope => exact own scope deciding endpoint allowed

end Reach

/-- A signer whose tokens can be read back. -/
def spell (claims : Claims) : String :=
  String.ofList ('#' :: (List.replicate claims.subject.length 'a' ++
    'b' :: (claims.subject.toList ++ claims.scope.toList)))

/-- The verifier for the tokens of `spell`. -/
def readSpelled : Verifier Int := fun token =>
  match token.toList with
  | '#' :: chars =>
    let size := (chars.takeWhile (· == 'a')).length
    let rest := chars.drop (size + 1)
    some [("sub", .str (String.ofList (rest.take size))),
      ("scope", .str (String.ofList (rest.drop size))),
      ("iss", .str exchangeIssuer), ("aud", .str exchangeAudience),
      ("exp", .num 3700), ("nbf", .num 100), ("iat", .num 100)]
  | _ => none

/-- Tokens of the key of a build system.  The token `ci` names a scope of its
own, the token `bare` names none, and the map takes both for the same
subject. -/
def buildAuth : Authenticator Int where
  exchangeJwt := some readSpelled
  jwt := [fun token =>
    if token = "ci" then
      some [("sub", .str "ci"), ("scope", .str "registry:pull"), ("exp", .num 200)]
    else if token = "bare" then some [("sub", .str "ci"), ("exp", .num 200)]
    else none]
  scopeMap := some ⟨[{ scope := "api", match_ := [("sub", { equals := some (.str "ci") })] }]⟩

theorem readSpelled_spell (subject scope : String) :
    readSpelled (spell (exchangeClaims (documentedEnv 100) subject scope)) =
      some [("sub", .str subject), ("scope", .str scope),
        ("iss", .str exchangeIssuer), ("aud", .str exchangeAudience),
        ("exp", .num 3700), ("nbf", .num 100), ("iat", .num 100)] := by
  have size : ((replicate subject.length 'a' ++ 'b' ::
      (subject.toList ++ scope.toList)).takeWhile (· == 'a')) = replicate subject.length 'a' := by
    rw [takeWhile_append_of_pos]
    · simp
    · intro c mem
      simp [eq_of_mem_replicate mem]
  have rest : (replicate subject.length 'a' ++ 'b' ::
      (subject.toList ++ scope.toList)).drop (subject.length + 1) =
      subject.toList ++ scope.toList := by
    rw [drop_append]
    simp
  simp only [readSpelled, spell, exchangeClaims, String.toList_ofList, size, length_replicate, rest]
  rw [take_left' String.length_toList, drop_left' String.length_toList]
  simp

theorem build_signs : Signs (documentedEnv 100) buildAuth spell where
  internal _ member := nomatch member
  sshJwt _ member := nomatch member
  exchangeJwt := by
    refine ⟨readSpelled, rfl, ?_⟩
    intro subject scope
    rw [readSpelled_spell]
    rfl
  fresh subject scope := rfl
  foreign subject scope expected some_ other := by
    simp [documentedEnv, exchangeClaims, some_, Ne.symm other]
  notStatic subject scope same := by
    simp [spell, buildAuth, String.ext_iff] at same
  notCaretaker subject scope same := by
    simp [spell, buildAuth, String.ext_iff] at same

/-- A token that an `api` rule matches gains nothing. -/
theorem bareToken_not_amplified : (handleTokenExchange (documentedEnv 100) buildAuth spell
      { subjectToken := "bare" }).map Prod.snd = .ok "api" ∧
    NoAmplification (documentedEnv 100) buildAuth spell { subjectToken := "bare" } := by
  refine ⟨by decide +kernel, ?_⟩
  apply (noAmplification_iff (documentedEnv 100) buildAuth spell build_signs "bare").mpr
  · intro some_ subject claims scope rule access verified mapped granted issuable
    refine .inr ⟨fun caretaker => caretaker.1 rfl, ?_⟩
    intro own deciding
    have none_ : ownScope (documentedEnv 100) buildAuth (trimSpace "bare") = none := by
      decide +kernel
    rw [none_] at deciding
    cases deciding
  · rfl

/-- The token `ci` pulls images; the credential it is traded for does
everything. -/
theorem ciToken_amplified :
    ¬NoAmplification (documentedEnv 100) buildAuth spell { subjectToken := "ci" } := by
  intro never
  have exchanged :
      handleTokenExchange (documentedEnv 100) buildAuth spell { subjectToken := "ci" } =
        .ok (spell (exchangeClaims (documentedEnv 100) "ci" "api"), "api") := by
    decide +kernel
  have reached := never _ _ exchanged .api
    { bearer := some (spell (exchangeClaims (documentedEnv 100) "ci" "api")) } false
    ⟨rfl, rfl⟩ (by decide +kernel) { bearer := some "ci" } false ⟨rfl, by
      decide +kernel⟩
  exact absurd reached (by decide +kernel)

end Cornus.Auth
