import Keycloak.Lib.Machine
import Keycloak.Lib.LinkedMap
import Keycloak.Lib.ParentWalk
import Keycloak.Lib.BitSet
import Keycloak.Lib.Digraph
import Keycloak.Lib.Search
import Keycloak.Sessions.Changelog
import Keycloak.Sessions.ConcurrentCommit
import Keycloak.Sessions.LastSessionRefresh
import Keycloak.Sessions.ClientListenerExecutor
import Keycloak.Sessions.KeycloakTransaction
import Keycloak.Sessions.RemoveExpired
import Keycloak.Sessions.CacheInitializer
import Keycloak.Cache.Revisions
import Keycloak.Cache.Freshness
import Keycloak.Authz.Evaluation
import Keycloak.Authz.Decisions
import Keycloak.Authz.Feed
import Keycloak.Authz.DecisionCache
import Keycloak.Authz.PermissionCollector
import Keycloak.Authz.QueryOrder
import Keycloak.Authz.Batch
import Keycloak.Authz.PermissionTicket
import Keycloak.Authz.PolicyGraph
import Keycloak.Saml.Document
import Keycloak.Saml.SignatureValidation
import Keycloak.Saml.Endpoint
import Keycloak.Authentication.Executions
import Keycloak.Authentication.Flow
import Keycloak.Authentication.Invariant
import Keycloak.Authentication.Walk
import Keycloak.Authentication.ProcessFlow
import Keycloak.Authentication.ProcessAction
import Keycloak.Authentication.Requests
import Keycloak.Authentication.Runs
import Keycloak.Tokens.AuthorizationCode
import Keycloak.Tokens.RefreshToken
import Keycloak.Groups.Hierarchy
import Keycloak.Groups.Requests
import Keycloak.Groups.GroupTree
import Keycloak.Groups.LdapConvergence
import Keycloak.Cache.GroupQueries
import Keycloak.Cache.ObjectCache
import Keycloak.Cache.PolicyQueries
import Keycloak.Cache.PolicyLookups
import Keycloak.Cache.PolicyTransparency
import Keycloak.Tokens.Jwe
import Keycloak.Migration.ModelVersion
import Keycloak.Cluster.TaskLock
import Keycloak.Sessions.RootAuthenticationSession
import Keycloak.Storage.UserStorageSync
import Keycloak.Adapters.PolicyEnforcer
import Keycloak.Saml.MessageCoverage
import Keycloak.Authentication.ClientAuthenticationFlow
import Keycloak.Authentication.FormAuthenticationFlow
import Keycloak.Tokens.RoleScope
import Keycloak.Sessions.BruteForceProtector
import Keycloak.Protocol.RedirectHosts
import Keycloak.Protocol.RedirectCase
import Keycloak.Common.TemplateExpansion
import Keycloak.Common.SinglePath
import Keycloak.Authz.CollectedResults
import Keycloak.Authz.EnforcedDecisions
import Keycloak.Authz.ScopeRequests
import Keycloak.Authz.Permissions
import Keycloak.Authz.AuthorizationTokenService
import Keycloak.Authz.GrantedRequest
import Keycloak.Authz.RolePolicyProvider
import Keycloak.Adapters.PermissionOrder
import Keycloak.Groups.GroupPaths
import Keycloak.Authz.GroupPolicyProvider
import Keycloak.Authz.PolicyDeletion
import Keycloak.Authz.RequestTickets
import Keycloak.Common.PathOrder
import Keycloak.Groups.GroupTreeResolver
import Keycloak.Groups.PathLookup
import Keycloak.Storage.UserStorageManager
import Keycloak.Authentication.OneTimePassword
import Keycloak.Sessions.SessionTimeouts
import Keycloak.Groups.Collisions
import Keycloak.Groups.SearchPages
import Keycloak.Lib.EscapedSplit
import Keycloak.Storage.LDAPDn
import Keycloak.Lib.SearchFilter
import Keycloak.Storage.LDAPQuery
import Keycloak.Sessions.CommittedEntries
import Keycloak.Sessions.UserSessionAdapter
import Keycloak.Authentication.BrowserLogout
import Keycloak.Lib.PathTree
import Keycloak.Services.TransactionManager
import Keycloak.Sessions.RemoteCacheSessionsLoader
import Keycloak.Tokens.ClaimMappers
import Keycloak.Tokens.JweRoundTrip
import Keycloak.Services.TrustedHosts
import Keycloak.Saml.DestinationValidator
import Keycloak.Common.Encode
import Keycloak.Common.LenientEncoding
import Keycloak.Common.EncodedTemplates
import Keycloak.Common.StableEncoding
import Keycloak.Lib.GenericUri
import Keycloak.Lib.JavaUri
import Keycloak.Common.KeycloakUriBuilder
import Keycloak.Common.RebuiltUri
import Keycloak.Common.FormDecoding
import Keycloak.Common.QueryParams
import Keycloak.Lib.Worklist
import Keycloak.Tokens.CompositeRoles
import Keycloak.Authentication.PasswordPolicy
import Keycloak.Sessions.EventQueue
import Keycloak.Tokens.PairwiseSubMapper
import Keycloak.Sessions.LastSessionRefreshStore
import Keycloak.Sessions.RefreshDelivery
import Keycloak.Tokens.PublicKeyFreshness
import Keycloak.Authentication.FlowCopies
import Keycloak.Authentication.FlowForest
import Keycloak.Authentication.PasswordHistory
import Keycloak.Authentication.LoginCompletion
import Keycloak.Authentication.LoginRuns
import Keycloak.Lib.KeyedTable
import Keycloak.Sessions.SessionPreload
import Keycloak.Saml.BelievedAssertion
