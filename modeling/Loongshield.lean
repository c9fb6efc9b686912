import Loongshield.Lib.Trace
import Loongshield.Lib.Worklist
import Loongshield.Lib.Act
import Loongshield.Lib.PathTree
import Loongshield.Lib.Compare
import Loongshield.Lib.Queue
import Loongshield.Lib.References
import Loongshield.Lib.Ere
import Loongshield.Lib.Shell
import Loongshield.Lib.Group
import Loongshield.Lib.Glob
import Loongshield.Lib.Replay
import Loongshield.Lua.Number
import Loongshield.Lua.Value
import Loongshield.Lua.Pattern
import Loongshield.Lua.Match
import Loongshield.Lua.Flags
import Loongshield.Lua.Reach
import Loongshield.Lua.Rest
import Loongshield.Lua.Balance
import Loongshield.Lua.Escape
import Loongshield.Lua.Fold
import Loongshield.Lua.Split
import Loongshield.Seharden.Util
import Loongshield.Seharden.Template
import Loongshield.Seharden.Comparators
import Loongshield.Seharden.ModeBits
import Loongshield.Seharden.RuleSchema
import Loongshield.Seharden.Evaluator
import Loongshield.Seharden.Assertion
import Loongshield.Seharden.Safe
import Loongshield.Seharden.Host
import Loongshield.Seharden.RuleExecutor
import Loongshield.Seharden.Engine
import Loongshield.Seharden.Trace
import Loongshield.Seharden.Enforcement
import Loongshield.Seharden.Guard
import Loongshield.Seharden.Accounting
import Loongshield.Seharden.Abort
import Loongshield.Seharden.Reference
import Loongshield.Seharden.Expansion
import Loongshield.Seharden.MetaMap
import Loongshield.Seharden.MapTemplates
import Loongshield.Seharden.Profile
import Loongshield.Seharden.Selection
import Loongshield.Seharden.SshCache
import Loongshield.Seharden.FileSystem
import Loongshield.Seharden.Fsutil
import Loongshield.Seharden.Text
import Loongshield.Seharden.Glob
import Loongshield.Seharden.ShellEscape
import Loongshield.Seharden.PathList
import Loongshield.Seharden.Replacement
import Loongshield.Seharden.FileEnforcer
import Loongshield.Seharden.SysctlEnforcer
import Loongshield.Seharden.Unreadable
import Loongshield.Seharden.AuditRules
import Loongshield.Seharden.Packages
import Loongshield.Seharden.AuditEnforcer
import Loongshield.Seharden.Attributes
import Loongshield.Seharden.View
import Loongshield.Seharden.AuditProbe
import Loongshield.Seharden.AuditCoverage
import Loongshield.Seharden.AuditWords
import Loongshield.Seharden.Reliable
import Loongshield.Seharden.AuditRoundTrip
import Loongshield.Seharden.AuditRuleLine
import Loongshield.Seharden.AuditMissed
import Loongshield.Seharden.Tree
import Loongshield.Seharden.Permissions
import Loongshield.Seharden.SshdConfig
import Loongshield.Seharden.AccessSound
import Loongshield.Seharden.Dotfiles
import Loongshield.Seharden.Logging
import Loongshield.Seharden.Tightening
import Loongshield.Seharden.LogWalk
import Loongshield.Seharden.DotfilesProbe
import Loongshield.Seharden.DotfilesWalk
import Loongshield.Seharden.DotfilesConverge
import Loongshield.Seharden.Rpmvercmp
import Loongshield.Seharden.MinVersion
import Loongshield.Seharden.RpmOrder
import Loongshield.Seharden.Umask
import Loongshield.Seharden.CryptoPolicy
import Loongshield.Seharden.Pam
import Loongshield.Seharden.PamRepeat
import Loongshield.Seharden.Mounts
import Loongshield.Seharden.LineEdits
import Loongshield.Seharden.ConfigPaths
import Loongshield.Seharden.SysctlProbe
import Loongshield.Seharden.Trim
import Loongshield.Seharden.Sudoers
import Loongshield.Seharden.Sudo
import Loongshield.Seharden.SudoersLine
import Loongshield.Seharden.SudoersInclude
import Loongshield.Seharden.SshdDiscovery
import Loongshield.Seharden.SudoersRewrite
import Loongshield.Seharden.SudoersComment
import Loongshield.Seharden.SudoEdit
import Loongshield.Seharden.UsePty
import Loongshield.Seharden.NoPasswd
import Loongshield.Seharden.SudoersLoad
import Loongshield.Seharden.SudoersTree
import Loongshield.Runtime.Ramfs
import Loongshield.Runtime.Require
import Loongshield.Rpm.Listing
import Loongshield.Rpm.Verify
import Loongshield.Rpm.Digest
import Loongshield.Rpm.Sbom
import Loongshield.LuaLsm.Policy
import Loongshield.LuaLsm.Sandbox
import Loongshield.LuaLsm.Securityfs
import Loongshield.LuaLsm.Cli
import Loongshield.Seharden.PathView
import Loongshield.Seharden.FindPattern
import Loongshield.Seharden.GrepPath
import Loongshield.Seharden.Chrony
import Loongshield.Seharden.Boot
import Loongshield.Seharden.PolicyFile
import Loongshield.Seharden.PolicyScopes
import Loongshield.Seharden.Kmod
import Loongshield.Seharden.Aide
import Loongshield.Seharden.AideConfig
import Loongshield.Seharden.KeyValueFile
import Loongshield.Seharden.KeyValueEdit
import Loongshield.Seharden.IniEdit
import Loongshield.Seharden.Faillock
import Loongshield.Seharden.ForAll
import Loongshield.Seharden.Duplicates
import Loongshield.Seharden.Identity
import Loongshield.Seharden.Ageing
import Loongshield.Seharden.RsyslogVerdict
import Loongshield.Seharden.Cli
import Loongshield.Seharden.Services
