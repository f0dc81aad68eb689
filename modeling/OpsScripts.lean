import OpsScripts.Text
import OpsScripts.FileTree
import OpsScripts.Calendar
import OpsScripts.Coreutils
import OpsScripts.Xargs
import OpsScripts.TreeMap
import OpsScripts.Process
import OpsScripts.Read
import OpsScripts.Pattern
import OpsScripts.Inet
import OpsScripts.Json
import OpsScripts.Keepalived
import OpsScripts.BlockConf
import OpsScripts.Keepalived.Failover
import OpsScripts.Croner.DiskAlerts
import OpsScripts.Croner.Connections
import OpsScripts.Croner.Upload
import OpsScripts.Croner.Scripts
import OpsScripts.Croner.LogDir
import OpsScripts.Croner.CleanLogs
import OpsScripts.Croner.Retention
import OpsScripts.Croner.Rotation
import OpsScripts.Croner.Store
import OpsScripts.Croner.Alerts
import OpsScripts.Croner.LogText
import OpsScripts.Croner.Interleaving
import OpsScripts.Turns
import OpsScripts.Nginx.RoundRobin
import OpsScripts.Nginx.Balancer
import OpsScripts.Nginx.Visits
import OpsScripts.Nginx.Shares
import OpsScripts.Nginx.Radix
import OpsScripts.Prefixes
import OpsScripts.Nginx.Geo
import OpsScripts.Nginx.Geo2nginx
